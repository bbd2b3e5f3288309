import Dsv41Overlay.Lib.Links
import Mathlib.Data.Int.Cast.Defs
import Mathlib.Data.List.Nodup

/-!
# The queue of free blocks

`FreeKVCacheBlockQueue` threads a doubly linked list through the blocks themselves, with
a fake head and a fake tail, so that a block in the middle can be removed in one step.
Its operations edit `prev_free_block` and `next_free_block` in place, as here.

`Queue.Holds q xs` says that the links of `q` spell the queue `xs`: the chain from the
fake head to the fake tail visits just the blocks `xs`, `num_free_blocks` counts them,
and no other block has links. Each operation then does to `xs` what its name says, and
reports an error where it has to.
-/

namespace Dsv41Overlay.KvCache

/-- A `KVCacheBlock` of the queue: one of the two fake blocks, or a block by its id. -/
inductive Node
  | head
  | tail
  | block (i : ℕ)
deriving DecidableEq, Repr

/-- What the classes of the KV cache raise. -/
inductive Raised
  | assertionError
  | valueError
  | runtimeError
  | indexError
deriving DecidableEq, Repr

/-- `FreeKVCacheBlockQueue`. -/
structure Queue where
  links : Links Node
  numFreeBlocks : ℤ

/-- The nodes of a queue, between the fake ones. -/
def nodesOf (xs : List ℕ) : List Node := Node.head :: (xs.map Node.block ++ [Node.tail])

namespace Queue

/-- `FreeKVCacheBlockQueue(blocks)` for the blocks `0, …, n - 1`, none of them linked. -/
def init (n : ℕ) : Queue where
  links :=
    { next := fun x => match x with
        | .head => some (if 0 < n then .block 0 else .tail)
        | .block i => if i + 1 < n then some (.block (i + 1)) else if i + 1 = n then some .tail
          else none
        | .tail => none
      prev := fun x => match x with
        | .tail => some (if 0 < n then .block (n - 1) else .head)
        | .block i => if i < n then some (if 0 < i then .block (i - 1) else .head) else none
        | .head => none }
  numFreeBlocks := n

variable (q : Queue)

/-- `popleft`. -/
def popleft : Except Raised (Node × Queue) :=
  match q.links.next .head with
  | none => if q.numFreeBlocks = 0 then .error .valueError else .error .assertionError
  | some first =>
    if first = .tail then
      if q.numFreeBlocks = 0 then .error .valueError else .error .assertionError
    else
      match q.links.next first with
      | none => .error .runtimeError
      | some second =>
        .ok (first, ⟨(q.links.link .head second).clear first, q.numFreeBlocks - 1⟩)

/-- `popleft_n`. -/
def popleftN (n : ℕ) : Except Raised (List Node × Queue) :=
  if n = 0 then .ok ([], q)
  else if q.numFreeBlocks < n then .error .assertionError
  else
    match Links.walk n q.links (q.links.next .head) [] with
    | none => .error .assertionError
    | some (links, none, ret) => .ok (ret, ⟨links, q.numFreeBlocks - n⟩)
    | some (links, some curr, ret) => .ok (ret, ⟨links.link .head curr, q.numFreeBlocks - n⟩)

/-- `remove`. -/
def remove (x : Node) : Except Raised Queue :=
  match q.links.prev x, q.links.next x with
  | some before, some after =>
    .ok ⟨(q.links.link before after).clear x, q.numFreeBlocks - 1⟩
  | _, _ => .error .runtimeError

/-- `append`. -/
def append (x : Node) : Except Raised Queue :=
  match q.links.prev .tail with
  | none => .error .runtimeError
  | some last => .ok ⟨(q.links.link last x).link x .tail, q.numFreeBlocks + 1⟩

/-- `prepend_n`. -/
def prependN (xs : List Node) : Except Raised Queue :=
  if xs = [] then .ok q
  else
    match q.links.next .head with
    | none => .error .assertionError
    | some first =>
      let (links, prev) := q.links.linkAll .head xs
      .ok ⟨links.link prev first, q.numFreeBlocks + xs.length⟩

/-- `append_n`. -/
def appendN (xs : List Node) : Except Raised Queue :=
  if xs = [] then .ok q
  else
    match q.links.prev .tail with
    | none => .error .assertionError
    | some last =>
      let (links, last) := q.links.linkAll last xs
      .ok ⟨links.link last .tail, q.numFreeBlocks + xs.length⟩

/-- The loop of `get_all_free_blocks`, in at most `fuel` rounds. -/
def collect (links : Links Node) : ℕ → Node → List Node → Option (List Node)
  | 0, _, _ => none
  | fuel + 1, curr, ret =>
    match links.next curr with
    | none => some ret
    | some next => collect links fuel next (ret ++ [curr])

/-- `get_all_free_blocks`; `.ok none` when `fuel` rounds are not enough. -/
def getAllFreeBlocks (fuel : ℕ) : Except Raised (Option (List Node)) :=
  match q.links.next .head with
  | none => .error .runtimeError
  | some first => .ok (collect q.links fuel first [])

/-- The links of the queue spell `xs`. -/
structure Holds (q : Queue) (xs : List ℕ) : Prop where
  chain : q.links.Chain (nodesOf xs)
  nodup : xs.Nodup
  size : q.numFreeBlocks = xs.length
  /-- Blocks outside the queue have no links. -/
  unlinked : ∀ i ∉ xs, q.links.next (.block i) = none ∧ q.links.prev (.block i) = none
  head_prev : q.links.prev .head = none
  tail_next : q.links.next .tail = none

variable {q} {xs ys : List ℕ} {i : ℕ}

/-- A block node is among the wrapped ids when its id is in the list. -/
theorem block_mem_map : Node.block i ∈ xs.map Node.block ↔ i ∈ xs :=
  List.mem_map_of_injective fun _ _ h => Node.block.inj h

/-- The nodes of a list are its blocks between the two sentinels, so a block is one of them when its
id is in the list. -/
theorem block_mem_nodesOf : Node.block i ∈ nodesOf xs ↔ i ∈ xs := by
  simp [nodesOf]

/-- Distinct ids give distinct nodes, the sentinels included. -/
theorem nodup_nodesOf (h : xs.Nodup) : (nodesOf xs).Nodup := by
  have hmap : (xs.map Node.block).Nodup := h.map fun _ _ h => Node.block.inj h
  simp [nodesOf, List.nodup_append, hmap]

/-- The nodes around a stretch of the queue: one before it, which is not the fake tail, and
one behind it, which is not the fake head. -/
theorem nodesOf_append (xs ys : List ℕ) : ∃ pre a b post,
    (∀ zs, nodesOf (xs ++ zs ++ ys) = pre ++ a :: (zs.map Node.block ++ b :: post)) ∧
      a ≠ .tail ∧ b ≠ .head ∧ (xs = [] → pre = [] ∧ a = .head) ∧
      (ys = [] → post = [] ∧ b = .tail) := by
  -- the left neighbour is the last block before the gap, or the head
  obtain ⟨pre, a, hpre⟩ : ∃ pre a, Node.head :: xs.map Node.block = pre ++ [a] :=
    ⟨_, _, (List.dropLast_append_getLast (List.cons_ne_nil _ _)).symm⟩
  -- the right neighbour is the first block behind it, or the tail
  obtain ⟨b, post, hpost⟩ : ∃ b post, ys.map Node.block ++ [Node.tail] = b :: post :=
    List.exists_cons_of_ne_nil (List.append_ne_nil_of_right_ne_nil _ (List.cons_ne_nil _ _))
  refine ⟨pre, a, b, post, fun zs => ?_, ?_, ?_, ?_, ?_⟩
  · rw [nodesOf, List.map_append, List.map_append, List.append_assoc, List.append_assoc, hpost,
      ← List.cons_append, hpre, List.append_assoc, List.singleton_append]
  · rintro rfl
    have hmem : Node.tail ∈ Node.head :: xs.map Node.block := hpre ▸ by simp
    simp at hmem
  · rintro rfl
    have hmem : Node.head ∈ ys.map Node.block ++ [Node.tail] := hpost ▸ by simp
    simp at hmem
  · rintro rfl
    obtain ⟨rfl, ha⟩ := List.append_eq_singleton_iff.mp hpre.symm |>.resolve_right (by simp)
    exact ⟨rfl, (List.singleton_inj.mp ha)⟩
  · rintro rfl
    obtain ⟨rfl, rfl⟩ := List.cons.inj hpost
    exact ⟨rfl, rfl⟩

/-- What is left of the queue when it has been linked around a stretch `ms`, and the
links of `ms` have been cleared. -/
theorem Holds.unlink {front ms back : List ℕ} {q' : Queue} {pre post : List Node} {a b : Node}
    (h : q.Holds (front ++ ms ++ back))
    (hnodes : nodesOf (front ++ back) = pre ++ a :: b :: post) (ha : a ≠ .tail) (hb : b ≠ .head)
    (hchain : q'.links.Chain (nodesOf (front ++ back)))
    (hsize : q'.numFreeBlocks = q.numFreeBlocks - ms.length)
    (hnext : ∀ z, z ≠ a → q'.links.next z =
      if z ∈ ms.map Node.block then none else q.links.next z)
    (hprev : ∀ z, z ≠ b → q'.links.prev z =
      if z ∈ ms.map Node.block then none else q.links.prev z) :
    q'.Holds (front ++ back) := by
  -- both neighbours are still in the list
  have hmem {z : Node} (hz : z = a ∨ z = b) : z ∈ nodesOf (front ++ back) := by
    rw [hnodes]
    rcases hz with rfl | rfl <;> simp
  have hsub : (front ++ back).Sublist (front ++ ms ++ back) :=
    (List.sublist_append_left front ms).append_right back
  refine ⟨hchain, h.nodup.sublist hsub, ?_, fun i hi => ?_, ?_, ?_⟩
  · rw [hsize, h.size]
    simp only [List.length_append]
    omega
  -- a block outside the list is no neighbour
  · have hia : Node.block i ≠ a := fun hia => hi (block_mem_nodesOf.mp (hmem (.inl hia)))
    have hib : Node.block i ≠ b := fun hib => hi (block_mem_nodesOf.mp (hmem (.inr hib)))
    rw [hnext _ hia, hprev _ hib]
    -- either it was taken out just now, or it was outside before
    by_cases him : i ∈ ms
    · rw [if_pos (block_mem_map.mpr him), if_pos (block_mem_map.mpr him)]
      exact ⟨rfl, rfl⟩
    · have hi' : i ∉ front ++ ms ++ back := by
        simp only [List.mem_append, not_or] at hi ⊢
        exact ⟨⟨hi.1, him⟩, hi.2⟩
      rw [if_neg (mt block_mem_map.mp him), if_neg (mt block_mem_map.mp him)]
      exact h.unlinked i hi'
  · rw [hprev _ (Ne.symm hb), if_neg (by simp)]
    exact h.head_prev
  · rw [hnext _ (Ne.symm ha), if_neg (by simp)]
    exact h.tail_next

/-- **`remove`** takes a block of the queue out of it. -/
theorem remove_mem (h : q.Holds xs) (hi : i ∈ xs) :
    ∃ q', q.remove (.block i) = .ok q' ∧ q'.Holds (xs.erase i) := by
  obtain ⟨front, back, hnot, rfl, herase⟩ := List.exists_erase_eq hi
  obtain ⟨pre, a, b, post, hnodes, ha, hb, -⟩ := nodesOf_append front back
  have hnodes₀ : nodesOf (front ++ back) = pre ++ a :: b :: post := by
    simpa only [List.append_nil, List.map_nil, List.nil_append] using hnodes []
  -- the removed block stands between its neighbours
  have hchain : q.links.Chain (pre ++ a :: Node.block i :: b :: post) := by
    have hchain := h.chain
    rwa [List.append_cons, hnodes [i]] at hchain
  have hchain' : q.links.Chain ((pre ++ [a]) ++ Node.block i :: b :: post) := by
    rwa [List.append_assoc, List.singleton_append]
  have hnodup : (nodesOf (front ++ back)).Nodup :=
    nodup_nodesOf (h.nodup.sublist ((List.sublist_cons_self i back).append_left front))
  have hi' : Node.block i ∉ nodesOf (front ++ back) := by
    rw [block_mem_nodesOf, List.mem_append, not_or]
    exact ⟨hnot, (List.nodup_cons.mp (List.nodup_append.mp h.nodup).2.1).1⟩
  rw [herase]
  -- its neighbours are linked with each other
  refine ⟨⟨(q.links.link a b).clear (.block i), q.numFreeBlocks - 1⟩, ?_, ?_⟩
  · rw [remove, Links.Chain.prev_eq hchain, Links.Chain.next_eq hchain']
  · rw [List.append_cons] at h
    refine h.unlink hnodes₀ ha hb ?_ rfl (fun z hz => ?_) (fun z hz => ?_)
    · refine Links.Chain.clear ?_ hi'
      rw [hnodes₀] at hnodup ⊢
      obtain ⟨hleft, -, hright⟩ := List.isChain_append_cons_cons.mp hchain
      exact Links.Chain.join hnodup hleft (List.IsChain.tail hright)
    · rw [Links.clear_next, Links.link_next, if_neg hz, List.map_singleton]
      simp only [List.mem_singleton]
    · rw [Links.clear_prev, Links.link_prev, if_neg hz, List.map_singleton]
      simp only [List.mem_singleton]

/-- Removing a block that is not in the queue raises, since its links are empty. -/
theorem remove_not_mem (h : q.Holds xs) (hi : i ∉ xs) :
    q.remove (.block i) = .error .runtimeError := by
  rw [remove, (h.unlinked i hi).1]
  cases q.links.prev (.block i) <;> rfl

/-- The head points at the front of the queue. -/
theorem Holds.next_head (h : q.Holds (i :: xs)) : q.links.next .head = some (.block i) :=
  Links.Chain.next_head h.chain

/-- **`popleft`** takes the first block. -/
theorem popleft_cons (h : q.Holds (i :: xs)) :
    ∃ q', q.popleft = .ok (.block i, q') ∧ q'.Holds xs := by
  obtain ⟨q', hremove, hq'⟩ := remove_mem h List.mem_cons_self
  rw [List.erase_cons_head] at hq'
  refine ⟨q', ?_, hq'⟩
  -- the front block points back at the head
  have hprev : q.links.prev (.block i) = some .head := Links.Chain.prev_head h.chain
  rw [remove, hprev] at hremove
  rw [popleft, h.next_head]
  cases hnext : q.links.next (.block i) with
  | none =>
    rw [hnext] at hremove
    cases hremove
  | some second =>
    rw [hnext] at hremove
    rw [← Except.ok.inj hremove]
    dsimp only
    rw [if_neg (by simp), hnext]

/-- An empty queue has nothing to pop. -/
theorem popleft_nil (h : q.Holds []) : q.popleft = .error .valueError := by
  have hnext : q.links.next .head = some .tail := Links.Chain.next_head h.chain
  have hsize : q.numFreeBlocks = 0 := h.size
  simp [popleft, hnext, hsize]

/-- **`popleft_n`** takes the first `n` blocks, in their order. -/
theorem popleftN_ok {n : ℕ} (h : q.Holds xs) (hn : n ≤ xs.length) :
    ∃ q', q.popleftN n = .ok ((xs.take n).map .block, q') ∧ q'.Holds (xs.drop n) := by
  obtain rfl | hpos := Nat.eq_zero_or_pos n
  · exact ⟨q, rfl, h⟩
  obtain ⟨ms, hms⟩ : ∃ ms, ms = xs.take n := ⟨_, rfl⟩
  obtain ⟨back, hback⟩ : ∃ back, back = xs.drop n := ⟨_, rfl⟩
  have hxs : xs = [] ++ ms ++ back := by rw [hms, hback, List.nil_append, List.take_append_drop]
  have hlen : ms.length = n := by rw [hms, List.length_take, Nat.min_eq_left hn]
  obtain ⟨pre, a, b, post, hnodes, ha, hb, hfront, -⟩ := nodesOf_append [] back
  obtain ⟨rfl, rfl⟩ := hfront rfl
  have hnodes₀ : nodesOf ([] ++ back) = [] ++ Node.head :: b :: post := by
    simpa only [List.append_nil, List.map_nil, List.nil_append] using hnodes []
  -- the walk clears the first n blocks
  rw [← hms, ← hback]
  rw [hxs] at h
  have hchain := h.chain
  have hnodup := nodup_nodesOf h.nodup
  rw [hnodes ms, List.nil_append] at hchain hnodup
  have hlen' : (ms.map Node.block).length = n := by rw [List.length_map, hlen]
  -- the walk starts at the first block
  have hstart : q.links.next .head = some ((ms.map Node.block ++ [b]).head (by simp)) := by
    cases ms with
    | nil => exact absurd hlen (by simp; omega)
    | cons m ms => exact Links.Chain.next_head hchain
  obtain ⟨L, hwalk, hL, hlinks⟩ :=
    Links.Chain.walk (List.IsChain.tail hchain) (List.nodup_cons.mp hnodup).2 []
  rw [hlen', ← hstart, List.nil_append] at hwalk
  refine ⟨⟨L.link .head b, q.numFreeBlocks - n⟩, ?_, ?_⟩
  · have hsize : ¬q.numFreeBlocks < n := by
      rw [h.size, ← hxs]
      omega
    rw [popleftN, if_neg (Nat.pos_iff_ne_zero.mp hpos), if_neg hsize, hwalk]
  -- afterwards the head is linked with the first block that stays
  · refine h.unlink hnodes₀ ha hb ?_ (by rw [hlen]) (fun z hz => ?_) (fun z hz => ?_)
    · rw [hnodes₀]
      refine Links.Chain.join ?_ (.singleton _) hL
      exact hnodup.sublist ((List.sublist_append_right _ _).cons_cons _)
    · rw [Links.link_next, if_neg hz, (hlinks z).1]
    · rw [Links.link_prev, if_neg hz, (hlinks z).2]

/-- Popping more blocks than the queue holds trips the assertion. -/
theorem popleftN_error {n : ℕ} (h : q.Holds xs) (hn : xs.length < n) :
    q.popleftN n = .error .assertionError := by
  have hsize : q.numFreeBlocks < n := by
    rw [h.size]
    omega
  rw [popleftN, if_neg (by omega), if_pos hsize]

/-- The queue when `ys` have been linked into it. -/
theorem Holds.linkIn {front ys back : List ℕ} {pre post : List Node} {a b : Node}
    (h : q.Holds (front ++ back))
    (hnodes : ∀ zs, nodesOf (front ++ zs ++ back) = pre ++ a :: (zs.map Node.block ++ b :: post))
    (ha : a ≠ .tail) (hb : b ≠ .head) (hnodup : (front ++ ys ++ back).Nodup) {L : Links Node}
    {last : Node} (hL : q.links.linkAll a (ys.map .block) = (L, last)) :
    Holds ⟨L.link last b, q.numFreeBlocks + ys.length⟩ (front ++ ys ++ back) := by
  have hnodes₀ : nodesOf (front ++ back) = pre ++ a :: b :: post := by
    simpa only [List.append_nil, List.map_nil, List.nil_append] using hnodes []
  obtain ⟨hleft, -, hright⟩ := List.isChain_append_cons_cons.mp (hnodes₀ ▸ h.chain)
  have hall := nodup_nodesOf hnodup
  rw [hnodes ys] at hall
  -- the last of the linked nodes ends what comes before the right neighbour
  obtain ⟨pre', hpre'⟩ : ∃ pre', pre ++ a :: ys.map Node.block = pre' ++ [last] := by
    have hlast := Links.linkAll_snd q.links a (ys.map .block)
    rw [hL] at hlast
    refine ⟨pre ++ (a :: ys.map Node.block).dropLast, ?_⟩
    rw [List.append_assoc, show last = _ from hlast, List.dropLast_append_getLast]
  have hassoc (rest : List Node) :
      pre ++ a :: (ys.map Node.block ++ rest) = pre' ++ last :: rest := by
    rw [← List.cons_append, ← List.append_assoc, hpre', List.append_assoc, List.singleton_append]
  have hL₁ : L = (q.links.linkAll a (ys.map .block)).1 := by rw [hL]
  -- it is the left neighbour itself where nothing was linked
  have hlast_mem : last = a ∨ last ∈ ys.map Node.block := by
    rw [← List.mem_cons, show last = _ from (congrArg Prod.snd hL).symm, Links.linkAll_snd]
    exact List.getLast_mem _
  have hmem_a : a ∈ nodesOf (front ++ back) := by
    rw [hnodes₀]
    simp
  have hmem_b : b ∈ nodesOf (front ++ back) := by
    rw [hnodes₀]
    simp
  refine ⟨?_, hnodup, ?_, fun i hi => ?_, ?_, ?_⟩
  -- the chain: up to the last linked node, and from the right neighbour on
  · rw [hnodes ys, hassoc (b :: post)]
    refine Links.Chain.join (hassoc (b :: post) ▸ hall) ?_ ?_
    · rw [← hpre', hL₁]
      refine Links.Chain.linkAll hleft (hall.sublist ?_)
      exact ((List.sublist_append_left _ _).cons_cons a).append_left pre
    · rw [hL₁]
      refine Links.Chain.linkAll_of_disjoint hright fun z hz hz' => ?_
      have hrest := (List.nodup_append.mp hall).2.1
      rw [← List.cons_append] at hrest
      exact (List.nodup_append.mp hrest).2.2 z hz z hz' rfl
  · change q.numFreeBlocks + ys.length = _
    rw [h.size]
    simp only [List.length_append]
    omega
  -- a block outside the new list is none of the nodes that were touched
  · have hia : Node.block i ≠ a := by
      intro hia
      have hmem := block_mem_nodesOf.mp (hia ▸ hmem_a)
      simp only [List.mem_append, not_or] at hi hmem
      exact hmem.elim hi.1.1 hi.2
    have hib : Node.block i ≠ b := by
      intro hib
      have hmem := block_mem_nodesOf.mp (hib ▸ hmem_b)
      simp only [List.mem_append, not_or] at hi hmem
      exact hmem.elim hi.1.1 hi.2
    have hiy : Node.block i ∉ ys.map Node.block := by
      rw [block_mem_map]
      exact fun hiy => hi (List.mem_append_left _ (List.mem_append_right _ hiy))
    have hil : Node.block i ≠ last := by
      rintro rfl
      exact hlast_mem.elim hia hiy
    have hi' : i ∉ front ++ back := by
      simp only [List.mem_append, not_or] at hi ⊢
      exact ⟨hi.1.1, hi.2⟩
    rw [Links.link_next, if_neg hil, Links.link_prev, if_neg hib, hL₁,
      Links.linkAll_next (by rw [List.mem_cons, not_or]; exact ⟨hia, hiy⟩),
      Links.linkAll_prev hiy]
    exact h.unlinked i hi'
  -- no node points back from the head
  · rw [Links.link_prev, if_neg (Ne.symm hb), hL₁, Links.linkAll_prev (by simp)]
    exact h.head_prev
  -- and none forward from the tail
  · have hlast : Node.tail ≠ last := by
      rintro rfl
      exact hlast_mem.elim (Ne.symm ha) (by simp)
    rw [Links.link_next, if_neg hlast, hL₁, Links.linkAll_next (by simp [Ne.symm ha])]
    exact h.tail_next

/-- **`prepend_n`** puts blocks in front of the queue, in their order. -/
theorem prependN_ok (h : q.Holds xs) (hnodup : (ys ++ xs).Nodup) :
    ∃ q', q.prependN (ys.map .block) = .ok q' ∧ q'.Holds (ys ++ xs) := by
  obtain ⟨pre, a, b, post, hnodes, ha, hb, hfront, -⟩ := nodesOf_append [] xs
  obtain ⟨rfl, rfl⟩ := hfront rfl
  cases ys with
  | nil => exact ⟨q, rfl, h⟩
  | cons y ys =>
    have hchain := h.chain
    -- the head pointed at the first block so far
    have hnext : q.links.next .head = some b := by
      rw [show nodesOf xs = _ from hnodes []] at hchain
      exact Links.Chain.next_head hchain
    refine ⟨_, ?_, h.linkIn hnodes ha hb hnodup rfl⟩
    rw [prependN, if_neg (by simp), hnext, List.length_map]
    rfl

/-- **`append_n`** puts blocks at the end of the queue, in their order. -/
theorem appendN_ok (h : q.Holds xs) (hnodup : (xs ++ ys).Nodup) :
    ∃ q', q.appendN (ys.map .block) = .ok q' ∧ q'.Holds (xs ++ ys) := by
  obtain ⟨pre, a, b, post, hnodes, ha, hb, -, hback⟩ := nodesOf_append xs []
  obtain ⟨rfl, rfl⟩ := hback rfl
  cases ys with
  | nil => exact ⟨q, rfl, by rwa [List.append_nil]⟩
  | cons y ys =>
    have hnodes₀ : nodesOf xs = pre ++ a :: [Node.tail] := by
      simpa using hnodes []
    -- the tail pointed back at the last block so far
    have hprev : q.links.prev .tail = some a := Links.Chain.prev_eq (hnodes₀ ▸ h.chain)
    rw [← List.append_nil xs] at h
    rw [← List.append_nil (xs ++ y :: ys)] at hnodup ⊢
    refine ⟨_, ?_, h.linkIn hnodes ha hb hnodup rfl⟩
    rw [appendN, if_neg (by simp), hprev, List.length_map]
    rfl

/-- **`append`** puts a block at the end. -/
theorem append_ok (h : q.Holds xs) (hi : i ∉ xs) :
    ∃ q', q.append (.block i) = .ok q' ∧ q'.Holds (xs ++ [i]) := by
  have hnodup : (xs ++ [i]).Nodup :=
    List.nodup_append.mpr ⟨h.nodup, List.nodup_singleton i, fun a ha b hb hab =>
      hi (List.mem_singleton.mp hb ▸ hab ▸ ha)⟩
  obtain ⟨q', happend, hq'⟩ := appendN_ok h hnodup
  refine ⟨q', ?_, hq'⟩
  rw [appendN, if_neg (by simp)] at happend
  rw [append]
  -- the queue holds the last block, so the tail points back at something
  cases hprev : q.links.prev .tail with
  | none =>
    rw [hprev] at happend
    cases happend
  | some last =>
    rw [hprev] at happend
    exact happend

/-- The queue of `__init__` holds all blocks in the order of their ids. -/
theorem init_holds (n : ℕ) : (init n).Holds (List.range n) := by
  -- the blocks from s on, by induction on their number
  have hchain (m s : ℕ) (hsm : s + m = n) :
      (init n).links.Chain ((List.range' s m).map Node.block ++ [Node.tail]) := by
    induction m generalizing s with
    | zero => exact .singleton _
    | succ m ih =>
      have hrest := ih (s + 1) (by omega)
      -- the last block points at the tail
      cases m with
      | zero =>
        refine .cons_cons ⟨?_, ?_⟩ hrest
        · simp [init, show s + 1 = n by omega]
        · simp [init, show 0 < n by omega, show n - 1 = s by omega]
      | succ m =>
        refine .cons_cons ⟨?_, ?_⟩ hrest
        · simp [init, show s + 1 < n by omega]
        · simp [init, show s + 1 < n by omega]
  refine ⟨?_, List.nodup_range, (congrArg _ List.length_range.symm : _), fun i hi => ?_, rfl, rfl⟩
  · rw [nodesOf, List.range_eq_range']
    have hrest := hchain n 0 (Nat.zero_add n)
    cases n with
    | zero => exact .cons_cons ⟨rfl, rfl⟩ hrest
    | succ n => exact .cons_cons ⟨by simp [init], by simp [init]⟩ hrest
  · rw [List.mem_range] at hi
    simp [init, hi, show ¬i + 1 < n by omega, show ¬i + 1 = n by omega]

/-- Walking from a node of the chain collects it and everything behind it, given fuel for the
walk. -/
theorem collect_ok {links : Links Node} {c : Node} {rest : List Node} {fuel : ℕ}
    (hchain : links.Chain (c :: rest ++ [Node.tail])) (htail : links.next .tail = none)
    (ret : List Node) (hfuel : rest.length + 1 < fuel) :
    collect links fuel c ret = some (ret ++ c :: rest) := by
  induction rest generalizing c ret fuel with
  | nil =>
    obtain ⟨fuel, rfl⟩ : ∃ k, fuel = k + 2 := ⟨fuel - 2, by simp at hfuel; omega⟩
    have hnext : links.next c = some .tail := Links.Chain.next_head hchain
    simp only [collect, hnext, htail]
  | cons d rest ih =>
    obtain ⟨fuel, rfl⟩ : ∃ k, fuel = k + 1 := ⟨fuel - 1, by omega⟩
    have hnext : links.next c = some d := Links.Chain.next_head hchain
    rw [List.length_cons] at hfuel
    simp only [collect, hnext]
    rw [ih (List.IsChain.tail hchain) (ret ++ [c]) (by omega), List.append_assoc,
      List.singleton_append]

/-- **`get_all_free_blocks`** returns the queue. -/
theorem getAllFreeBlocks_ok {fuel : ℕ} (h : q.Holds xs) (hfuel : xs.length < fuel) :
    q.getAllFreeBlocks fuel = .ok (some (xs.map .block)) := by
  have hchain := h.chain
  cases xs with
  | nil =>
    obtain ⟨fuel, rfl⟩ : ∃ k, fuel = k + 1 := ⟨fuel - 1, by omega⟩
    have hnext : q.links.next .head = some .tail := Links.Chain.next_head hchain
    simp only [getAllFreeBlocks, hnext, collect, h.tail_next, List.map_nil]
  | cons i xs =>
    rw [getAllFreeBlocks, h.next_head]
    dsimp only
    have hrest : q.links.Chain (Node.block i :: xs.map Node.block ++ [Node.tail]) :=
      List.IsChain.tail hchain
    rw [collect_ok hrest h.tail_next [] (by simpa using hfuel)]
    rfl

end Queue

/-! ### Runs -/

/-- A call of the queue. -/
inductive Op
  | popleft
  | popleftN (n : ℕ)
  | remove (i : ℕ)
  | append (i : ℕ)
  | prependN (is : List ℕ)
  | appendN (is : List ℕ)
deriving Repr

namespace Op

/-- The blocks that the call puts into the queue. -/
def adds : Op → List ℕ
  | append i => [i]
  | prependN is | appendN is => is
  | popleft | popleftN _ | remove _ => []

/-- What the call does to a queue kept as a list: the blocks returned, and the queue left. -/
def onList : Op → List ℕ → Except Raised (List ℕ × List ℕ)
  | popleft, [] => .error .valueError
  | popleft, i :: xs => .ok ([i], xs)
  | popleftN n, xs => if n ≤ xs.length then .ok (xs.take n, xs.drop n) else .error .assertionError
  | remove i, xs => if i ∈ xs then .ok ([], xs.erase i) else .error .runtimeError
  | append i, xs => .ok ([], xs ++ [i])
  | prependN is, xs => .ok ([], is ++ xs)
  | appendN is, xs => .ok ([], xs ++ is)

/-- What the call does to the linked queue. -/
def onQueue (q : Queue) : Op → Except Raised (List Node × Queue)
  | popleft => q.popleft.map fun r => ([r.1], r.2)
  | popleftN n => q.popleftN n
  | remove i => (q.remove (.block i)).map fun q => ([], q)
  | append i => (q.append (.block i)).map fun q => ([], q)
  | prependN is => (q.prependN (is.map .block)).map fun q => ([], q)
  | appendN is => (q.appendN (is.map .block)).map fun q => ([], q)

/-- A call for a list of calls, which stops at the first error. -/
def runList : List Op → List ℕ → Except Raised (List (List ℕ) × List ℕ)
  | [], xs => .ok ([], xs)
  | op :: ops, xs => do
    let (ret, xs) ← op.onList xs
    let (rets, xs) ← runList ops xs
    return (ret :: rets, xs)

def runQueue : List Op → Queue → Except Raised (List (List Node) × Queue)
  | [], q => .ok ([], q)
  | op :: ops, q => do
    let (ret, q) ← op.onQueue q
    let (rets, q) ← runQueue ops q
    return (ret :: rets, q)

/-- No call puts a block into the queue that is in it already. -/
def Legal : List Op → List ℕ → Prop
  | [], _ => True
  | op :: ops, xs => (op.adds ++ xs).Nodup ∧
      match op.onList xs with
      | .ok r => Legal ops r.2
      | .error _ => True

variable {q : Queue} {xs : List ℕ} {op : Op}

/-- **One call** returns on the linked queue what it returns on the list, or fails alike. -/
theorem onQueue_refines (h : q.Holds xs) (hfresh : (op.adds ++ xs).Nodup) :
    (∃ ret xs' q', op.onList xs = .ok (ret, xs') ∧ op.onQueue q = .ok (ret.map .block, q') ∧
      q'.Holds xs') ∨ ∃ e, op.onList xs = .error e ∧ op.onQueue q = .error e := by
  -- one case for each operation, with its error where it has one
  cases op with
  | popleft =>
    cases xs with
    | nil => exact .inr ⟨_, rfl, by rw [onQueue, Queue.popleft_nil h]; rfl⟩
    | cons i xs =>
      obtain ⟨q', hq, hq'⟩ := Queue.popleft_cons h
      exact .inl ⟨[i], xs, q', rfl, by rw [onQueue, hq]; rfl, hq'⟩
  | popleftN n =>
    by_cases hn : n ≤ xs.length
    · obtain ⟨q', hq, hq'⟩ := Queue.popleftN_ok h hn
      exact .inl ⟨_, _, q', if_pos hn, hq, hq'⟩
    · exact .inr ⟨_, if_neg hn, Queue.popleftN_error h (not_le.mp hn)⟩
  | remove i =>
    by_cases hi : i ∈ xs
    · obtain ⟨q', hq, hq'⟩ := Queue.remove_mem h hi
      exact .inl ⟨_, _, q', if_pos hi, by rw [onQueue, hq]; rfl, hq'⟩
    · exact .inr ⟨_, if_neg hi, by rw [onQueue, Queue.remove_not_mem h hi]; rfl⟩
  | append i =>
    obtain ⟨q', hq, hq'⟩ := Queue.append_ok h (List.nodup_cons.mp hfresh).1
    exact .inl ⟨_, _, q', rfl, by rw [onQueue, hq]; rfl, hq'⟩
  | prependN is =>
    have hfresh : (is ++ xs).Nodup := hfresh
    obtain ⟨q', hq, hq'⟩ := Queue.prependN_ok h hfresh
    exact .inl ⟨_, _, q', rfl, by rw [onQueue, hq]; rfl, hq'⟩
  | appendN is =>
    have hfresh : (is ++ xs).Nodup := hfresh
    obtain ⟨q', hq, hq'⟩ := Queue.appendN_ok h (List.nodup_append_comm.mp hfresh)
    exact .inl ⟨_, _, q', rfl, by rw [onQueue, hq]; rfl, hq'⟩

/-- Any legal run, from any queue that spells the list. -/
theorem runQueue_refines {ops : List Op} (h : q.Holds xs) (hlegal : Legal ops xs) :
    (∃ rets xs' q', runList ops xs = .ok (rets, xs') ∧
      runQueue ops q = .ok (rets.map (List.map .block), q') ∧ q'.Holds xs') ∨
    ∃ e, runList ops xs = .error e ∧ runQueue ops q = .error e := by
  induction ops generalizing q xs with
  | nil => exact .inl ⟨[], xs, q, rfl, rfl, h⟩
  | cons op ops ih =>
    obtain ⟨hfresh, hrest⟩ := hlegal
    -- the first operation, then the rest of the run
    obtain ⟨ret, xs₁, q₁, hlist, hqueue, h₁⟩ | ⟨e, hlist, hqueue⟩ := onQueue_refines h hfresh
    · obtain ⟨rets, xs₂, q₂, hlists, hqueues, h₂⟩ | ⟨e, hlists, hqueues⟩ :=
        ih h₁ (by simpa only [hlist] using hrest)
      · refine .inl ⟨ret :: rets, xs₂, q₂, ?_, ?_, h₂⟩
        · simp only [runList, hlist, hlists, bind, Except.bind, pure, Except.pure]
        · simp only [runQueue, hqueue, hqueues, bind, Except.bind, pure, Except.pure, List.map_cons]
      · refine .inr ⟨e, ?_, ?_⟩
        · simp only [runList, hlist, hlists, bind, Except.bind]
        · simp only [runQueue, hqueue, hqueues, bind, Except.bind]
    · refine .inr ⟨e, ?_, ?_⟩
      · simp only [runList, hlist, bind, Except.bind]
      · simp only [runQueue, hqueue, bind, Except.bind]

/-- **The linked queue is a queue.** Every legal run from a new queue of `n` blocks returns
what it returns on the list of the ids, or raises the same at the same call; afterwards
the count is right and walking the links yields the list. -/
theorem queue_runs (n : ℕ) (ops : List Op) (hlegal : Legal ops (List.range n)) :
    (∃ rets xs q, runList ops (List.range n) = .ok (rets, xs) ∧
      runQueue ops (Queue.init n) = .ok (rets.map (List.map .block), q) ∧
      q.numFreeBlocks = xs.length ∧
      q.getAllFreeBlocks (xs.length + 1) = .ok (some (xs.map .block))) ∨
    ∃ e, runList ops (List.range n) = .error e ∧ runQueue ops (Queue.init n) = .error e := by
  obtain ⟨rets, xs, q, hlist, hqueue, hq⟩ | herr := runQueue_refines (Queue.init_holds n) hlegal
  · exact .inl ⟨rets, xs, q, hlist, hqueue, hq.size, Queue.getAllFreeBlocks_ok hq (by omega)⟩
  · exact .inr herr

/-- Two blocks are taken, one is removed from the middle, and two come back. -/
def sampleRun : List Op := [popleftN 2, remove 3, prependN [1], append 0, popleft]

/-- A run that mixes every operation, on a queue of five blocks. -/
theorem queue_runs_sample : Legal sampleRun (List.range 5) ∧
    ((∃ rets xs q, runList sampleRun (List.range 5) = .ok (rets, xs) ∧
      runQueue sampleRun (Queue.init 5) = .ok (rets.map (List.map .block), q) ∧
      q.numFreeBlocks = xs.length ∧
      q.getAllFreeBlocks (xs.length + 1) = .ok (some (xs.map .block))) ∨
    ∃ e, runList sampleRun (List.range 5) = .error e ∧
      runQueue sampleRun (Queue.init 5) = .error e) := by
  have hlegal : Legal sampleRun (List.range 5) := by
    simp [sampleRun, Legal, adds, onList, List.range, List.range.loop]
  exact ⟨hlegal, queue_runs 5 sampleRun hlegal⟩

end Op

end Dsv41Overlay.KvCache
