import Mathlib.Data.List.Chain
import Mathlib.Data.List.Infix
import Mathlib.Logic.Function.Basic

/-!
# Doubly linked nodes

A store of forward and backward links, and the lists of nodes that are linked in both
directions (`Links.Chain`). Code on such lists makes local edits; their effect on chains
comes from three facts: a chain can be split at any node (`List.isChain_split`), a link
that the chain does not read may be changed (`Chain.setNext`, `Chain.setPrev`), and two
chains are joined by linking the end of one to the start of the other (`Chain.join`).

The two loops over such lists are here as well: one links new nodes after each other
(`linkAll`), the other walks along a chain and drops the links of what it has passed
(`walk`).
-/

namespace Dsv41Overlay

/-- The links of a set of nodes. -/
structure Links (α : Type*) where
  next : α → Option α
  prev : α → Option α

namespace Links

variable {α : Type*}

/-- The nodes are linked both ways. -/
def Linked (L : Links α) (x y : α) : Prop := L.next x = some y ∧ L.prev y = some x

/-- Neighbours in the list are linked both ways. -/
abbrev Chain (L : Links α) (xs : List α) : Prop := xs.IsChain L.Linked

variable [DecidableEq α]

/-- `x.next = y`. -/
def setNext (L : Links α) (x : α) (y : Option α) : Links α :=
  { L with next := Function.update L.next x y }

/-- `x.prev = y`. -/
def setPrev (L : Links α) (x : α) (y : Option α) : Links α :=
  { L with prev := Function.update L.prev x y }

/-- `a.next = b` and `b.prev = a`. -/
def link (L : Links α) (a b : α) : Links α := (L.setNext a (some b)).setPrev b (some a)

/-- `x.prev = x.next = None`. -/
def clear (L : Links α) (x : α) : Links α := (L.setNext x none).setPrev x none

/-- Link `xs` one after the other behind `a`; also returns the last of them. -/
def linkAll : Links α → α → List α → Links α × α
  | L, a, [] => (L, a)
  | L, a, x :: xs => linkAll (L.link a x) x xs

/-- Walk `n` nodes along the forward links, dropping the links of each; also returns the
node reached and the nodes passed. `none` where the links end too early. -/
def walk : ℕ → Links α → Option α → List α → Option (Links α × Option α × List α)
  | 0, L, curr, ret => some (L, curr, ret)
  | _ + 1, _, none, _ => none
  | n + 1, L, some x, ret => walk n (L.clear x) (L.next x) (ret ++ [x])

variable {L : Links α} {a b x y z : α} {xs ys : List α}

theorem link_next : (L.link a b).next z = if z = a then some b else L.next z :=
  Function.update_apply ..

theorem link_prev : (L.link a b).prev z = if z = b then some a else L.prev z :=
  Function.update_apply ..

theorem clear_next : (L.clear x).next z = if z = x then none else L.next z :=
  Function.update_apply ..

theorem clear_prev : (L.clear x).prev z = if z = x then none else L.prev z :=
  Function.update_apply ..

/-- A chain reads the forward link of all its nodes but the last. -/
theorem Chain.setNext (h : L.Chain xs) (hx : x ∉ xs.dropLast) (y : Option α) :
    (L.setNext x y).Chain xs := by
  induction xs with
  | nil => exact .nil
  | cons a xs ih =>
    cases xs with
    | nil => exact .singleton a
    | cons b xs =>
      obtain ⟨⟨hnext, hprev⟩, h⟩ := List.isChain_cons_cons.mp h
      rw [List.dropLast_cons_cons, List.mem_cons, not_or] at hx
      refine .cons_cons ⟨?_, hprev⟩ (ih h hx.2)
      exact (Function.update_of_ne (Ne.symm hx.1) _ _).trans hnext

/-- A chain reads the backward link of all its nodes but the first. -/
theorem Chain.setPrev (h : L.Chain xs) (hx : x ∉ xs.tail) (y : Option α) :
    (L.setPrev x y).Chain xs := by
  refine List.IsChain.imp_of_mem_tail_imp (fun a b _ hb hab => ⟨hab.1, ?_⟩) h
  have hne : b ≠ x := fun hbx => hx (hbx ▸ hb)
  exact (Function.update_of_ne hne _ _).trans hab.2

/-- The links of a node outside the chain may be dropped. -/
theorem Chain.clear (h : L.Chain xs) (hx : x ∉ xs) : (L.clear x).Chain xs :=
  Chain.setPrev (h.setNext (fun hmem => hx (List.mem_of_mem_dropLast hmem)) none)
    (fun hmem => hx (List.mem_of_mem_tail hmem)) none

/-- **Two chains are joined** by linking the end of the first to the start of the second. -/
theorem Chain.join (hnodup : (xs ++ a :: b :: ys).Nodup) (hleft : L.Chain (xs ++ [a]))
    (hright : L.Chain (b :: ys)) : (L.link a b).Chain (xs ++ a :: b :: ys) := by
  obtain ⟨-, hab, hdisj⟩ := List.nodup_append.mp hnodup
  obtain ⟨ha, hb⟩ := List.nodup_cons.mp hab
  have hbys := (List.nodup_cons.mp hb).1
  have hbxs : b ∉ xs ++ [a] := by
    rw [List.mem_append, List.mem_singleton, not_or]
    refine ⟨fun hmem => hdisj b hmem b (List.mem_cons_of_mem a List.mem_cons_self) rfl, ?_⟩
    rintro rfl
    exact ha List.mem_cons_self
  have haxs : a ∉ (xs ++ [a]).dropLast := by
    rw [List.dropLast_concat]
    exact fun hmem => hdisj a hmem a List.mem_cons_self rfl
  refine List.isChain_append_cons_cons.mpr ⟨?_, ⟨?_, ?_⟩, ?_⟩
  · exact Chain.setPrev (hleft.setNext haxs _) (fun hmem => hbxs (List.mem_of_mem_tail hmem)) _
  · rw [link_next, if_pos rfl]
  · rw [link_prev, if_pos rfl]
  · exact Chain.setPrev (hright.setNext (fun hmem => ha (List.mem_of_mem_dropLast hmem)) _) hbys _

/-- A new link between nodes outside the chain. -/
theorem Chain.link (h : L.Chain xs) (ha : a ∉ xs) (hb : b ∉ xs) : (L.link a b).Chain xs :=
  Chain.setPrev (h.setNext (fun hmem => ha (List.mem_of_mem_dropLast hmem)) _)
    (fun hmem => hb (List.mem_of_mem_tail hmem)) _

omit [DecidableEq α] in
theorem Chain.next_eq (h : L.Chain (xs ++ x :: y :: ys)) : L.next x = some y :=
  (List.isChain_append_cons_cons.mp h).2.1.1

omit [DecidableEq α] in
theorem Chain.next_head (h : L.Chain (x :: y :: ys)) : L.next x = some y :=
  (List.isChain_cons_cons.mp h).1.1

omit [DecidableEq α] in
theorem Chain.prev_head (h : L.Chain (x :: y :: ys)) : L.prev y = some x :=
  (List.isChain_cons_cons.mp h).1.2

omit [DecidableEq α] in
theorem Chain.prev_eq (h : L.Chain (xs ++ x :: y :: ys)) : L.prev y = some x :=
  (List.isChain_append_cons_cons.mp h).2.1.2

theorem linkAll_snd (L : Links α) (a : α) (xs : List α) :
    (L.linkAll a xs).2 = (a :: xs).getLast (List.cons_ne_nil a xs) := by
  induction xs generalizing L a with
  | nil => rfl
  | cons x xs ih => rw [linkAll, ih, List.getLast_cons_cons]

/-- **A chain grows by `linkAll`.** -/
theorem Chain.linkAll (h : L.Chain (ys ++ [a])) (hnodup : (ys ++ a :: xs).Nodup) :
    (L.linkAll a xs).1.Chain (ys ++ a :: xs) := by
  induction xs generalizing L a ys with
  | nil => exact h
  | cons x xs ih =>
    have hassoc (zs : List α) : ys ++ a :: x :: zs = (ys ++ [a]) ++ x :: zs := by
      rw [List.append_assoc, List.singleton_append]
    have hfront : (ys ++ [a] ++ [x]).Nodup := by
      rw [hassoc, List.append_cons] at hnodup
      exact (List.nodup_append.mp hnodup).1
    rw [Links.linkAll, hassoc]
    refine ih ?_ (hassoc xs ▸ hnodup)
    rw [← hassoc]
    exact h.join (hassoc [] ▸ hfront) (.singleton x)

/-- `linkAll` leaves chains of other nodes alone. -/
theorem Chain.linkAll_of_disjoint (h : L.Chain ys) (hdisj : ∀ z ∈ a :: xs, z ∉ ys) :
    (L.linkAll a xs).1.Chain ys := by
  induction xs generalizing L a with
  | nil => exact h
  | cons x xs ih =>
    obtain ⟨ha, hxs⟩ := List.forall_mem_cons.mp hdisj
    exact ih (h.link ha (hxs x List.mem_cons_self)) hxs

theorem linkAll_next (hz : z ∉ a :: xs) : (L.linkAll a xs).1.next z = L.next z := by
  induction xs generalizing L a with
  | nil => rfl
  | cons x xs ih =>
    obtain ⟨hza, hzx⟩ := not_or.mp (mt List.mem_cons.mpr hz)
    rw [linkAll, ih hzx, link_next, if_neg hza]

theorem linkAll_prev (hz : z ∉ xs) : (L.linkAll a xs).1.prev z = L.prev z := by
  induction xs generalizing L a with
  | nil => rfl
  | cons x xs ih =>
    obtain ⟨hzx, hzxs⟩ := not_or.mp (mt List.mem_cons.mpr hz)
    rw [linkAll, ih hzxs, link_prev, if_neg hzx]

/-- **A walk along a chain** passes its nodes, clears their links and leaves the rest of
the chain and all other links. -/
theorem Chain.walk (h : L.Chain (xs ++ y :: ys)) (hnodup : (xs ++ y :: ys).Nodup) (ret : List α) :
    ∃ L', walk xs.length L (some ((xs ++ [y]).head (by simp))) ret = some (L', some y, ret ++ xs) ∧
      L'.Chain (y :: ys) ∧
      ∀ z, L'.next z = (if z ∈ xs then none else L.next z) ∧
        L'.prev z = if z ∈ xs then none else L.prev z := by
  induction xs generalizing L ret with
  | nil => exact ⟨L, by rw [List.append_nil]; rfl, h, fun z => ⟨rfl, rfl⟩⟩
  | cons x xs ih =>
    rw [List.cons_append, List.nodup_cons] at hnodup
    obtain ⟨hx, hnodup⟩ := hnodup
    have hnext : L.next x = some ((xs ++ [y]).head (by simp)) := by
      cases xs with
      | nil => exact Chain.next_head h
      | cons x' xs => exact Chain.next_head h
    obtain ⟨L', hwalk, hchain, hlinks⟩ :=
      ih (Chain.clear (List.IsChain.tail h) hx) hnodup (ret ++ [x])
    refine ⟨L', ?_, hchain, fun z => ?_⟩
    · rw [List.length_cons]
      change Links.walk xs.length (L.clear x) (L.next x) (ret ++ [x]) = _
      rw [hnext, hwalk, List.append_assoc, List.singleton_append]
    · obtain ⟨hn, hp⟩ := hlinks z
      rw [hn, hp, clear_next, clear_prev]
      by_cases hz : z = x
      · simp only [hz, if_true, List.mem_cons_self, ite_self, and_self]
      · simp only [hz, if_false, List.mem_cons, false_or, and_self]

end Links

end Dsv41Overlay
