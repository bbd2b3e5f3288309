import Dsv41Overlay.Lib.Replace

/-!
# Text made of lines

`textOf ls` is the text with the lines `ls`, each ended by a newline. A string of whole
lines can only occur shifted against itself by whole lines, but for its first one, which
may be the end of another; so it is unbordered as soon as its last line is no other of
its lines and its first line is not the end of its last (`Distinctive.unbordered`).

Programs give such lines as string literals (`linesOf`); `Spelled` exposes their
characters, on which the condition is evaluated.
-/

namespace Dsv41Overlay

/-- The text with the given lines. -/
def textOf (ls : List (List Char)) : List Char := ls.flatMap (· ++ ['\n'])

@[simp] theorem textOf_nil : textOf [] = [] := rfl

theorem textOf_cons (l : List Char) (ls : List (List Char)) :
    textOf (l :: ls) = l ++ '\n' :: textOf ls := by
  rw [textOf, List.flatMap_cons, List.append_assoc]
  rfl

theorem infix_textOf {sub l : List Char} {ls : List (List Char)} (hl : l ∈ ls)
    (h : sub <:+: l) : sub <:+: textOf ls := by
  obtain ⟨front, rest, rfl⟩ := List.append_of_mem hl
  rw [textOf, List.flatMap_append, List.flatMap_cons]
  exact (h.trans (List.prefix_append _ _).isInfix).trans
    ((List.prefix_append _ _).isInfix.trans (List.suffix_append _ _).isInfix)

theorem not_mem_textOf {c : Char} {ls : List (List Char)} (h : ∀ l ∈ ls, c ∉ l)
    (hc : c ≠ '\n') : c ∉ textOf ls := by
  intro hmem
  obtain ⟨l, hl, hmem⟩ := List.mem_flatMap.mp hmem
  obtain hmem | hmem := List.mem_append.mp hmem
  · exact h l hl hmem
  · exact hc (List.mem_singleton.mp hmem)

/-- A line holds no line end of its own. -/
def IsLine (l : List Char) : Prop := '\n' ∉ l ∧ '\r' ∉ l

instance (l : List Char) : Decidable (IsLine l) := inferInstanceAs (Decidable (_ ∧ _))

/-- What stands before the first newline is determined by the text. -/
theorem append_newline_inj {a b s t : List Char} (ha : '\n' ∉ a) (hb : '\n' ∉ b)
    (h : a ++ '\n' :: s = b ++ '\n' :: t) : a = b ∧ s = t := by
  induction a generalizing b with
  | nil =>
    cases b with
    | nil => exact ⟨rfl, (List.cons.inj h).2⟩
    | cons c b => exact absurd ((List.cons.inj h).1 ▸ List.mem_cons_self) hb
  | cons c a ih =>
    cases b with
    | nil => exact absurd ((List.cons.inj h).1 ▸ List.mem_cons_self) ha
    | cons d b =>
      obtain ⟨rfl, htail⟩ := List.cons.inj h
      obtain ⟨rfl, rfl⟩ :=
        ih (List.not_mem_of_not_mem_cons ha) (List.not_mem_of_not_mem_cons hb) htail
      exact ⟨rfl, rfl⟩

/-- A text of lines that begins another is made of its first lines. -/
theorem prefix_of_textOf_prefix {ms ls : List (List Char)} (hms : ∀ m ∈ ms, IsLine m)
    (hls : ∀ l ∈ ls, IsLine l) (h : textOf ms <+: textOf ls) : ms <+: ls := by
  induction ms generalizing ls with
  | nil => exact List.nil_prefix
  | cons m ms ih =>
    obtain ⟨rest, h⟩ := h
    cases ls with
    | nil =>
      rw [textOf_cons, List.append_assoc] at h
      exact absurd (congrArg List.length h) (by simp)
    | cons l ls =>
      rw [textOf_cons, textOf_cons, List.append_assoc, List.cons_append] at h
      obtain ⟨rfl, htail⟩ :=
        append_newline_inj (hms m List.mem_cons_self).1 (hls l List.mem_cons_self).1 h
      refine List.cons_prefix_cons.mpr ⟨rfl, ih ?_ ?_ ⟨rest, htail⟩⟩
      · exact fun m hm => hms m (List.mem_cons_of_mem _ hm)
      · exact fun l hl => hls l (List.mem_cons_of_mem _ hl)

/-- The end of a text of lines is the end of one line and the lines after it. -/
theorem exists_of_drop_textOf {ls : List (List Char)} {k : ℕ} (hk : k < (textOf ls).length) :
    ∃ front l rest t, ls = front ++ l :: rest ∧ t <:+ l ∧
      (textOf ls).drop k = t ++ '\n' :: textOf rest ∧ (front = [] → 0 < k → t ≠ l) := by
  induction ls generalizing k with
  | nil => cases hk
  | cons l ls ih =>
    rw [textOf_cons] at hk ⊢
    by_cases hin : k ≤ l.length
    · refine ⟨[], l, ls, l.drop k, rfl, List.drop_suffix _ _, ?_, fun _ hpos heq => ?_⟩
      · rw [List.drop_append_of_le_length hin]
      · have := congrArg List.length heq
        rw [List.length_drop] at this
        omega
    · obtain ⟨j, rfl⟩ := Nat.exists_eq_add_of_lt (not_le.mp hin)
      rw [List.length_append, List.length_cons] at hk
      obtain ⟨front, m, rest, t, rfl, ht, hdrop, -⟩ := ih (k := j) (by omega)
      refine ⟨l :: front, m, rest, t, rfl, ht, ?_, fun h => by cases h⟩
      rw [← hdrop, Nat.add_assoc, List.drop_append, List.drop_of_length_le (by omega),
        List.nil_append, Nat.add_sub_cancel_left, List.drop_succ_cons]

/-- Lines that cannot be shifted onto themselves. -/
def Distinctive (ls : List (List Char)) : Prop :=
  (∀ l ∈ ls, IsLine l) ∧ (∀ l ∈ ls.dropLast, some l ≠ ls.getLast?) ∧
    (1 < ls.length → ¬ls.head?.getD [] <:+ ls.getLast?.getD [])

instance (ls : List (List Char)) : Decidable (Distinctive ls) :=
  inferInstanceAs (Decidable (_ ∧ _ ∧ _))

/-- **Such lines do not overlap themselves.** -/
theorem Distinctive.unbordered {ls : List (List Char)} (h : Distinctive ls) :
    Unbordered (textOf ls) := by
  obtain ⟨hline, hlast, hfirst⟩ := h
  intro k hk hpos hpre
  obtain ⟨front, l, rest, t, rfl, ht, hdrop, hshift⟩ := exists_of_drop_textOf hk
  -- The shifted copy is itself a text of lines, so its lines are the first ones.
  have hlines : t :: rest <+: front ++ l :: rest := by
    refine prefix_of_textOf_prefix ?_ hline ?_
    · have hl := hline l (List.mem_append_right _ List.mem_cons_self)
      refine List.forall_mem_cons.mpr ⟨⟨fun hmem => ?_, fun hmem => ?_⟩, fun m hm => ?_⟩
      · exact hl.1 (ht.subset hmem)
      · exact hl.2 (ht.subset hmem)
      · exact hline m (List.mem_append_right _ (List.mem_cons_of_mem _ hm))
    · rw [textOf_cons, ← hdrop]
      exact hpre
  cases front with
  | nil => exact hshift rfl hpos (List.cons_prefix_cons.mp hlines).1
  | cons f front =>
    obtain ⟨rfl, htail⟩ := List.cons_prefix_cons.mp hlines
    cases hrest : rest.getLast? with
    | none =>
      obtain rfl := List.getLast?_eq_none_iff.mp hrest
      refine hfirst (by simp) ?_
      have hlast : ((t :: front) ++ [l]).getLast? = some l := List.getLast?_concat ..
      rw [hlast, List.cons_append, List.head?_cons, Option.getD_some, Option.getD_some]
      exact ht
    | some z =>
      have hz : ((t :: front) ++ l :: rest).getLast? = some z := by
        rw [List.getLast?_append, List.getLast?_cons, hrest]
        rfl
      have hfront : t :: rest <+: ((t :: front) ++ l :: rest).dropLast := by
        rw [List.dropLast_eq_take, List.prefix_take_iff]
        refine ⟨List.cons_prefix_cons.mpr ⟨rfl, htail⟩, ?_⟩
        rw [List.length_append, List.length_cons, List.length_cons, List.length_cons]
        omega
      exact hlast z (hfront.subset (List.mem_cons_of_mem t (List.mem_of_getLast? hrest))) hz.symm

/-! ### Lines given as strings -/

/-- The lines of a list of strings. -/
def linesOf (ls : List String) : List (List Char) := ls.map String.toList

theorem textOf_linesOf_ne_nil {ls : List String} (h : ls ≠ []) : textOf (linesOf ls) ≠ [] := by
  obtain ⟨l, ls, rfl⟩ := List.exists_cons_of_ne_nil h
  rw [linesOf, List.map_cons, textOf_cons]
  exact List.append_ne_nil_of_right_ne_nil _ (List.cons_ne_nil _ _)

/-- The strings have these characters. A string literal unifies with `String.ofList` of
its characters, and what is to be evaluated about it is evaluated on them. -/
inductive Spelled : List String → List (List Char) → Prop
  | nil : Spelled [] []
  | cons (l : List Char) {ss : List String} {ls : List (List Char)} (h : Spelled ss ls) :
    Spelled (String.ofList l :: ss) (l :: ls)

theorem Spelled.linesOf_eq {ss : List String} {ls : List (List Char)} (h : Spelled ss ls) :
    linesOf ss = ls := by
  induction h with
  | nil => rfl
  | cons l h ih => exact congrArg₂ List.cons String.toList_ofList ih

theorem Distinctive.of_spelled {ss : List String} {ls : List (List Char)} (h : Spelled ss ls)
    (hls : Distinctive ls) : Distinctive (linesOf ss) := h.linesOf_eq ▸ hls

end Dsv41Overlay
