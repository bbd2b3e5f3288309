import Dsv41Overlay.Lib.Marker

/-!
# Texts with labels, cell by cell

A cell is a character or a label that stands for a string. A list of cells can
be written in several ways, one for each meaning of its labels; here it is
written once with numbered markers for the labels and once with the strings the
markers replace.

`exists_cut` says where a position of a written text falls: between two cells or
inside a label. `scan_write` scans a text with markers into its cells: the only
markers in it are the labels, provided the fixed part of a marker is not in the
text with the labels resolved.
-/

namespace Dsv41Overlay

/-- A character, or a label in a text. -/
inductive Cell (ι α : Type*)
  | char (c : α)
  | label (i : ι)
deriving Repr, DecidableEq

namespace Cell

variable {ι α : Type*}

/-- A cell written out. -/
def text (f : ι → List α) : Cell ι α → List α
  | char c => [c]
  | label i => f i

/-- Cells written out. -/
def write (f : ι → List α) (cells : List (Cell ι α)) : List α := cells.flatMap (text f)

/-- The labels of a text. -/
def labels (cells : List (Cell ι α)) : List ι :=
  cells.filterMap fun
    | char _ => none
    | label i => some i

section Write

variable (f : ι → List α)

@[simp] theorem write_nil : write f [] = [] := rfl

@[simp] theorem write_cons (x : Cell ι α) (cells : List (Cell ι α)) :
    write f (x :: cells) = x.text f ++ write f cells := List.flatMap_cons ..

@[simp] theorem write_append (a b : List (Cell ι α)) :
    write f (a ++ b) = write f a ++ write f b := List.flatMap_append

@[simp] theorem write_chars (t : List α) : write f (t.map char) = t := by
  induction t with
  | nil => rfl
  | cons c t ih => rw [List.map_cons, write_cons, ih]; rfl

@[simp] theorem labels_label (i : ι) (cells : List (Cell ι α)) :
    labels (label i :: cells) = i :: labels cells := rfl

@[simp] theorem labels_chars (t : List α) : labels (t.map (char : α → Cell ι α)) = [] := by
  induction t with
  | nil => rfl
  | cons c t ih => exact ih

@[simp] theorem labels_append (a b : List (Cell ι α)) : labels (a ++ b) = labels a ++ labels b :=
  List.filterMap_append

end Write

/-! ### Positions -/

/-- The position `p` of the written text is strictly inside a label. -/
def InsideLabel (f : ι → List α) (cells : List (Cell ι α)) (p : ℕ) : Prop :=
  ∃ a i b, cells = a ++ label i :: b ∧ (write f a).length < p
    ∧ p < (write f a).length + (f i).length

/-- **Where a position falls**: on a border of cells or strictly inside a label. -/
theorem exists_cut {f : ι → List α} {cells : List (Cell ι α)} {p : ℕ}
    (hp : p ≤ (write f cells).length) :
    (∃ a b, cells = a ++ b ∧ (write f a).length = p) ∨ InsideLabel f cells p := by
  induction cells generalizing p with
  | nil => exact .inl ⟨[], [], rfl, (Nat.le_zero.mp hp).symm⟩
  | cons x cells ih =>
    rw [write_cons, List.length_append] at hp
    by_cases hzero : p = 0
    · exact .inl ⟨[], x :: cells, rfl, hzero.symm⟩
    by_cases hx : (x.text f).length ≤ p
    · -- the position lies behind the first cell
      obtain ⟨a, b, rfl, ha⟩ | ⟨a, i, b, rfl, hlo, hhi⟩ :=
        ih (p := p - (x.text f).length) (by omega)
      · refine .inl ⟨x :: a, b, rfl, ?_⟩
        rw [write_cons, List.length_append]
        omega
      · refine .inr ⟨x :: a, i, b, rfl, ?_, ?_⟩ <;> rw [write_cons, List.length_append] <;> omega
    · cases x with
      -- a character has no inside
      | char c =>
        simp only [text, List.length_singleton] at hx
        omega
      | label i =>
        simp only [text] at hx
        exact .inr ⟨[], i, cells, rfl, by simp only [write_nil, List.length_nil]; omega, by
          simp only [write_nil, List.length_nil]; omega⟩

/-- A border of cells is inside no label. -/
theorem not_insideLabel {f : ι → List α} {a b : List (Cell ι α)} :
    ¬ InsideLabel f (a ++ b) (write f a).length := by
  rintro ⟨a', i, b', heq, hlo, hhi⟩
  obtain ⟨c, rfl, hc⟩ | ⟨c, rfl, hc⟩ := List.append_eq_append_iff.mp heq
  · -- the label starts behind the border
    rw [write_append, List.length_append] at hlo
    omega
  · cases c with
    | nil =>
      rw [List.append_nil] at hlo
      omega
    | cons x c =>
      obtain ⟨rfl, rfl⟩ := List.cons.inj hc
      rw [write_append, write_cons, List.length_append, List.length_append] at hhi
      simp only [text] at hhi
      omega

/-- A beginning of a written text is whole cells and part of a label. -/
theorem exists_take {f : ι → List α} {cells : List (Cell ι α)} {m : ℕ}
    (hm : m ≤ (write f cells).length) :
    ∃ a q, (write f cells).take m = write f a ++ q ∧
      ((q = [] ∧ ∃ b, cells = a ++ b ∧ (write f a).length = m)
        ∨ ∃ i b j, cells = a ++ label i :: b ∧ q = (f i).take j ∧ 0 < j ∧ j < (f i).length
            ∧ m = (write f a).length + j) := by
  obtain ⟨a, b, rfl, ha⟩ | ⟨a, i, b, rfl, hlo, hhi⟩ := exists_cut hm
  · refine ⟨a, [], ?_, .inl ⟨rfl, b, rfl, ha⟩⟩
    rw [write_append, List.append_nil, ← ha, List.take_left]
  · refine ⟨a, (f i).take (m - (write f a).length), ?_,
      .inr ⟨i, b, m - (write f a).length, rfl, rfl, by omega, by omega, by omega⟩⟩
    rw [write_append, write_cons, text, List.take_append, List.take_of_length_le hlo.le,
      List.take_append, show m - (write f a).length - (f i).length = 0 by omega, List.take_zero,
      List.append_nil]

/-! ### Scanning -/

section Scan

variable {k : MarkerShape} {digits : ι → List Char} {g : ι → List Char}

/-- What a scan makes of a cell. -/
def item (f : ι → List Char) : Cell ι Char → Item Char
  | char c => .lit c
  | label i => .hit (f i)

/-- A prefix without an opening character ends before the first marker. -/
theorem prefix_write {p : List Char} {cells : List (Cell ι Char)}
    (hopen : k.opening ∉ p) (hp : p <+: write (fun i => k.render (digits i)) cells) :
    p <+: write g cells := by
  induction p generalizing cells with
  | nil => exact List.nil_prefix
  | cons c p ih =>
    cases cells with
    | nil => exact absurd (List.prefix_nil.mp hp) (List.cons_ne_nil _ _)
    | cons x cells =>
      cases x with
      | char d =>
        obtain ⟨rfl, htail⟩ := List.cons_prefix_cons.mp hp
        exact List.cons_prefix_cons.mpr ⟨rfl, ih (fun h => hopen (List.mem_cons_of_mem _ h)) htail⟩
      -- a marker begins with the opening character
      | label i =>
        obtain ⟨rfl, -⟩ := List.cons_prefix_cons.mp hp
        exact absurd (List.mem_cons_self ..) hopen

/-- **A text with markers scans into its cells.** -/
theorem scan_write {cells : List (Cell ι Char)}
    (hdigits : ∀ i ∈ labels cells, k.IsNumeral (digits i))
    (hlead : ¬ k.lead <:+: write g cells) :
    scan k.matcher (write (fun i => k.render (digits i)) cells)
      = cells.map (item fun i => k.render (digits i)) := by
  induction cells with
  | nil => rfl
  | cons x cells ih =>
    have hrest : ¬ k.lead <:+: write g cells := fun h =>
      hlead (h.trans (List.suffix_append _ _).isInfix)
    cases x with
    | label i =>
      rw [labels_label] at hdigits
      rw [write_cons, text, MarkerShape.scan_render (hdigits i (List.mem_cons_self ..)),
        ih (fun j hj => hdigits j (List.mem_cons_of_mem _ hj)) hrest]
      rfl
    | char c =>
      have hno : fires k.matcher (c :: write (fun i => k.render (digits i)) cells) = false := by
        -- a marker that starts at a character would take its fixed part from the text
        by_contra hf
        obtain ⟨n, hn⟩ := fires_iff.mp (Bool.eq_true_of_not_eq_false hf)
        obtain ⟨ds, u, -, hs, -⟩ := MarkerShape.matcher_eq_some_iff.mp hn
        rw [MarkerShape.render, MarkerShape.lead, List.cons_append, List.cons_append,
          List.cons_append] at hs
        obtain ⟨rfl, htail⟩ := List.cons.inj hs
        -- the marker's body would stand in the text itself
        have hbody : k.body <+: write (fun i => k.render (digits i)) cells := by
          rw [htail, List.append_assoc, List.append_assoc]
          exact List.prefix_append _ _
        refine hlead (List.IsPrefix.isInfix ?_)
        exact List.cons_prefix_cons.mpr ⟨rfl, prefix_write k.opening_not_mem hbody⟩
      rw [write_cons, text, List.singleton_append, scan_cons_of_not_fires hno, ih hdigits hrest]
      rfl

end Scan

end Cell

end Dsv41Overlay
