import Dsv41Overlay.Lib.Buckets
import Mathlib.Data.List.Sort
import Mathlib.Logic.Function.Basic

/-!
# Running on a selection of rows

A batch is a list of rows, and a computation on it may be restricted to some of
them: `gather` reads the rows at a list of indices, the computation runs on what
was read, and `indexCopy` writes its rows back into a buffer of the full length.

Two facts make the restriction invisible. Row-by-row work commutes with
`gather` (`gather_map`, `gather_zipWith`), and a pass that skips some rows may
skip them before or after gathering (`filter_gather`): hence rows that store to
a shared memory leave the same memory whenever the rows left out store nothing
(`storeRows_gather`). Reading the result back is `getElem?_indexCopy_gather`.
-/

namespace Dsv41Overlay

variable {α β γ V : Type*}

/-! ### Gathering rows -/

section Gather

variable {idx : List ℕ} {l : List α}

theorem length_gather (h : ∀ i ∈ idx, i < l.length) : (gather l idx).length = idx.length := by
  have hall : ∀ i ∈ idx, (l[i]?).isSome = true := by
    intro i hi
    simp [h i hi]
  rw [gather, List.length_filterMap_eq_countP, List.countP_eq_length.mpr hall]

/-- `l.index_select(0, idx)`: the rows at the indices, all of which have to be there. -/
def indexSelect (l : List α) (idx : List ℕ) : Except String (List α) :=
  if ∀ i ∈ idx, i < l.length then .ok (gather l idx)
  else .error "index out of range in self"

theorem indexSelect_eq (h : ∀ i ∈ idx, i < l.length) : indexSelect l idx = .ok (gather l idx) :=
  if_pos h

/-- Two buffers combined row by row are gathered row by row. -/
theorem gather_zipWith (f : α → β → γ) {m : List β} (hl : ∀ i ∈ idx, i < l.length)
    (hm : ∀ i ∈ idx, i < m.length) :
    gather (List.zipWith f l m) idx = List.zipWith f (gather l idx) (gather m idx) := by
  have hz : ∀ i ∈ idx, i < (List.zipWith f l m).length := by
    intro i hi
    rw [List.length_zipWith]
    exact lt_min (hl i hi) (hm i hi)
  refine List.ext_getElem? fun j => ?_
  rw [getElem?_gather hz, List.getElem?_zipWith, getElem?_gather hl, getElem?_gather hm]
  cases hj : idx[j]? with
  | none => rfl
  | some i => simp [List.getElem?_zipWith]

/-- A strictly increasing list of indices below `n` is the range without the
indices it leaves out. -/
theorem filter_mem_range_of_sorted (hs : idx.Pairwise (· < ·)) {n : ℕ} (h : ∀ i ∈ idx, i < n) :
    (List.range n).filter (· ∈ idx) = idx := by
  refine List.Perm.eq_of_pairwise' (List.pairwise_lt_range.sublist List.filter_sublist) hs ?_
  refine (List.perm_ext_iff_of_nodup (List.nodup_range.filter _) (hs.imp Nat.ne_of_lt)).mpr ?_
  intro i
  rw [List.mem_filter, List.mem_range, decide_eq_true_eq]
  exact ⟨fun hi => hi.2, fun hi => ⟨h i hi, hi⟩⟩

/-- **Skipping rows.** A pass that skips every row left out by `idx` sees the
same rows on the gathered buffer as on the full one. -/
theorem filter_gather (hs : idx.Pairwise (· < ·)) (h : ∀ i ∈ idx, i < l.length) {p : α → Bool}
    (hdead : ∀ i x, l[i]? = some x → i ∉ idx → p x = false) :
    (gather l idx).filter p = l.filter p := by
  have hskip : ∀ i ∈ List.range l.length,
      (l[i]?).filter p = if i ∈ idx then (l[i]?).filter p else none := by
    intro i hi
    split
    · rfl
    · next hout =>
      rw [List.getElem?_eq_getElem (List.mem_range.mp hi)]
      simp [hdead i _ (List.getElem?_eq_getElem (List.mem_range.mp hi)) hout]
  calc (gather l idx).filter p
      = idx.filterMap fun i => (l[i]?).filter p := List.filter_filterMap ..
    _ = ((List.range l.length).filter (· ∈ idx)).filterMap fun i => (l[i]?).filter p := by
        rw [filter_mem_range_of_sorted hs h]
    _ = (List.range l.length).filterMap fun i => (l[i]?).filter p := by
        rw [List.filterMap_filter, List.filterMap_congr hskip]
        simp only [decide_eq_true_eq]
    _ = (gather l (List.range l.length)).filter p := (List.filter_filterMap ..).symm
    _ = l.filter p := by rw [gather_range]

end Gather

/-! ### Buffers whose first rows are a batch -/

/-- What is read at indices within the first part of a buffer. -/
theorem gather_append_left {idx : List ℕ} {l : List α} (h : ∀ i ∈ idx, i < l.length) (m : List α) :
    gather (l ++ m) idx = gather l idx := by
  refine List.filterMap_congr fun i hi => ?_
  exact List.getElem?_append_left (h i hi)

/-- A batch is written to the first rows of a buffer. -/
theorem overwrite_zero (buf data : List α) :
    overwrite buf 0 data = data ++ buf.drop data.length := by
  rw [overwrite, List.take_zero, List.nil_append, Nat.zero_add]

theorem getElem?_overwrite_zero {buf data : List α} {i : ℕ} (h : i < data.length) :
    (overwrite buf 0 data)[i]? = data[i]? := by
  rw [overwrite_zero, List.getElem?_append_left h]

theorem length_le_overwrite (buf data : List α) :
    buf.length ≤ (overwrite buf 0 data).length := by
  rw [overwrite_zero, List.length_append, List.length_drop]
  omega

/-- Only as many rows of a buffer are read as there are rows to combine them with. -/
theorem zipWith_take_length (f : α → β → γ) (l : List α) (m : List β) :
    List.zipWith f l (m.take l.length) = List.zipWith f l m := by
  induction l generalizing m with
  | nil => rfl
  | cons x l ih =>
    cases m with
    | nil => rfl
    | cons y m => rw [List.length_cons, List.take_succ_cons, List.zipWith_cons_cons, ih,
        List.zipWith_cons_cons]

/-- Combining rows with a buffer whose contents the combination ignores. -/
theorem zipWith_of_ignores {f : α → β → γ} (hf : ∀ x y y₂, f x y = f x y₂)
    {xs : List α} {ys ys₂ : List β} (h : xs.length ≤ ys.length) (h₂ : xs.length ≤ ys₂.length) :
    List.zipWith f xs ys = List.zipWith f xs ys₂ := by
  induction xs generalizing ys ys₂ with
  | nil => rfl
  | cons x xs ih =>
    obtain ⟨y, ys, rfl⟩ := List.exists_cons_of_length_pos ((Nat.succ_pos _).trans_le h)
    obtain ⟨y₂, ys₂, rfl⟩ := List.exists_cons_of_length_pos ((Nat.succ_pos _).trans_le h₂)
    rw [List.zipWith_cons_cons, List.zipWith_cons_cons, hf x y y₂,
      ih (Nat.le_of_succ_le_succ h) (Nat.le_of_succ_le_succ h₂)]

/-- `part` holds the rows of `full` at the given indices. -/
structure Gathers (idx : List ℕ) (part full : List α) : Prop where
  lt_length : ∀ i ∈ idx, i < full.length
  eq : part = gather full idx

/-- The first rows of `part` are the rows of `full` at the given indices. -/
structure Selects (idx : List ℕ) (part full : List α) : Prop where
  lt_length : ∀ i ∈ idx, i < full.length
  take_eq : part.take idx.length = gather full idx

section Gathers

variable {idx : List ℕ} {part full : List α} {part₂ full₂ : List β}

theorem Gathers.length_part (h : Gathers idx part full) : part.length = idx.length := by
  rw [h.eq, length_gather h.lt_length]

/-- All rows of a batch of `n`. -/
theorem gathers_range {n : ℕ} {rows : List α} (h : rows.length = n) :
    Gathers (List.range n) rows rows := by
  constructor
  case lt_length =>
    intro i hi
    rw [h]
    exact List.mem_range.mp hi
  case eq => rw [← h, gather_range]

theorem eq_of_gathers_range {n : ℕ} {rows rows₂ : List α} (hlen : rows₂.length ≤ n)
    (h : Gathers (List.range n) rows rows₂) : rows = rows₂ := by
  have hn : rows₂.length = n := by
    refine le_antisymm hlen (not_lt.mp fun hlt => ?_)
    exact lt_irrefl _ (h.lt_length _ (List.mem_range.mpr hlt))
  rw [h.eq, ← hn, gather_range]

theorem Gathers.map (h : Gathers idx part full) (f : α → β) :
    Gathers idx (part.map f) (full.map f) := by
  constructor
  case lt_length =>
    intro i hi
    rw [List.length_map]
    exact h.lt_length i hi
  case eq => rw [gather_map, h.eq]

theorem Gathers.zipWith (h : Gathers idx part full) (h₂ : Gathers idx part₂ full₂)
    (f : α → β → γ) : Gathers idx (List.zipWith f part part₂) (List.zipWith f full full₂) := by
  constructor
  case lt_length =>
    intro i hi
    rw [List.length_zipWith]
    exact lt_min (h.lt_length i hi) (h₂.lt_length i hi)
  case eq => rw [gather_zipWith f h.lt_length h₂.lt_length, h.eq, h₂.eq]

/-- Rows combined with a buffer: gathered rows with the rows it selects. -/
theorem Gathers.zipWith_selects (h : Gathers idx part full) (h₂ : Selects idx part₂ full₂)
    (f : α → β → γ) : Gathers idx (List.zipWith f part part₂) (List.zipWith f full full₂) := by
  rw [← zipWith_take_length, h.length_part, h₂.take_eq]
  exact h.zipWith ⟨h₂.lt_length, rfl⟩ f

/-- Writing gathered rows over one buffer and all rows over the other. -/
theorem Gathers.overwrite (h : Gathers idx part full) (buf buf₂ : List α) :
    Selects idx (overwrite buf 0 part) (overwrite buf₂ 0 full) := by
  rw [overwrite_zero, overwrite_zero]
  constructor
  case lt_length =>
    intro i hi
    rw [List.length_append]
    exact (h.lt_length i hi).trans_le (Nat.le_add_right _ _)
  case take_eq => rw [gather_append_left h.lt_length, List.take_left' h.length_part, h.eq]

end Gathers

/-! ### Writing rows back -/

/-- What `buf.index_copy_(0, idx, rows)` writes: row `j` goes to index `idx[j]`. -/
def indexCopy (buf : List α) (idx : List ℕ) (rows : List α) : List α :=
  (idx.zip rows).foldl (fun b p => b.set p.1 p.2) buf

/-- `buf.index_copy_(0, idx, rows)`: there is one row for each index, and every index lies
in the buffer. -/
def indexCopyInto (buf : List α) (idx : List ℕ) (rows : List α) : Except String (List α) :=
  if idx.length ≠ rows.length then
    .error (s!"index_copy_(): Number of indices ({idx.length}) should be equal to " ++
      s!"source.size(dim) ({rows.length})")
  else if ∀ i ∈ idx, i < buf.length then .ok (indexCopy buf idx rows)
  else .error "index_copy_(): index is out of bounds for dimension 0"

section IndexCopy

variable {idx : List ℕ} {buf rows l : List α}

theorem indexCopyInto_eq (hlen : rows.length = idx.length) (h : ∀ i ∈ idx, i < buf.length) :
    indexCopyInto buf idx rows = .ok (indexCopy buf idx rows) := by
  rw [indexCopyInto, if_neg (not_not_intro hlen.symm), if_pos h]

@[simp] theorem length_indexCopy : (indexCopy buf idx rows).length = buf.length := by
  unfold indexCopy
  generalize idx.zip rows = ps
  induction ps generalizing buf with
  | nil => rfl
  | cons p ps ih => rw [List.foldl_cons, ih, List.length_set]

/-- An index that is not listed keeps its row. -/
theorem getElem?_indexCopy_of_notMem {i : ℕ} (h : i ∉ idx) :
    (indexCopy buf idx rows)[i]? = buf[i]? := by
  unfold indexCopy
  induction idx generalizing buf rows with
  | nil => rfl
  | cons k idx ih =>
    rw [List.mem_cons, not_or] at h
    obtain ⟨hk, hrest⟩ := h
    cases rows with
    | nil => rfl
    | cons x rows =>
      rw [List.zip_cons_cons, List.foldl_cons, ih hrest, List.getElem?_set_ne (Ne.symm hk)]

/-- A listed index holds its row. -/
theorem getElem?_indexCopy (hnd : idx.Nodup) {i j : ℕ} (hi : idx[j]? = some i)
    (hb : i < buf.length) {x : α} (hx : rows[j]? = some x) :
    (indexCopy buf idx rows)[i]? = some x := by
  induction idx generalizing buf rows j with
  | nil => simp at hi
  | cons k idx ih =>
    obtain ⟨hk, hnd⟩ := List.nodup_cons.mp hnd
    cases rows with
    | nil => simp at hx
    | cons y rows =>
      have hstep : indexCopy buf (k :: idx) (y :: rows) = indexCopy (buf.set k y) idx rows := rfl
      rw [hstep]
      cases j with
      | zero =>
        -- no later row is written to the same index
        obtain rfl : k = i := by simpa using hi
        obtain rfl : y = x := by simpa using hx
        rw [getElem?_indexCopy_of_notMem hk]
        exact List.getElem?_set_self hb
      | succ j => exact ih hnd (by simpa using hi) (by simpa using hb) (by simpa using hx)

/-- **Scattering back what was gathered**: a listed row is the gathered one, any
other is what the buffer held. -/
theorem getElem?_indexCopy_gather (hnd : idx.Nodup) (hl : ∀ i ∈ idx, i < l.length)
    (hb : ∀ i ∈ idx, i < buf.length) (i : ℕ) :
    (indexCopy buf idx (gather l idx))[i]? = if i ∈ idx then l[i]? else buf[i]? := by
  split
  · next hi =>
    obtain ⟨j, hj⟩ := List.mem_iff_getElem?.mp hi
    have hrow : l[i]? = some (l.get ⟨i, hl i hi⟩) := List.getElem?_eq_getElem (hl i hi)
    rw [hrow, getElem?_indexCopy hnd hj (hb i hi)]
    rw [getElem?_gather hl, hj, Option.bind_some, hrow]
  · next hi => exact getElem?_indexCopy_of_notMem hi

end IndexCopy

/-! ### Rows that store to a shared memory -/

/-- Store the rows of a batch in order, each at its address. A negative address
stores nothing. -/
def storeRows (mem : ℤ → V) (rows : List (ℤ × V)) : ℤ → V :=
  rows.foldl (fun m row => if 0 ≤ row.1 then Function.update m row.1 row.2 else m) mem

section Store

variable {mem : ℤ → V} {rows : List (ℤ × V)}

/-- Only the rows with an address count. -/
theorem storeRows_eq_filter : storeRows mem rows
    = (rows.filter fun row => decide (0 ≤ row.1)).foldl
        (fun m row => Function.update m row.1 row.2) mem := by
  rw [List.foldl_filter]
  simp only [decide_eq_true_eq]
  rfl

/-- **Leaving out rows that store nothing** leaves the same memory. -/
theorem storeRows_gather {idx : List ℕ} (hs : idx.Pairwise (· < ·))
    (h : ∀ i ∈ idx, i < rows.length) (hdead : ∀ i row, rows[i]? = some row → i ∉ idx → row.1 < 0) :
    storeRows mem (gather rows idx) = storeRows mem rows := by
  rw [storeRows_eq_filter, storeRows_eq_filter, filter_gather hs h]
  intro i row hrow hout
  have := hdead i row hrow hout
  rw [decide_eq_false_iff_not]
  omega

end Store

end Dsv41Overlay
