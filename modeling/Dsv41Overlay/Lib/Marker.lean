import Mathlib.Data.List.TakeWhile
import Mathlib.Tactic.Ring
import Dsv41Overlay.Lib.Regex

/-!
# Numbered markers in a text

A marker is a fixed prefix, a numeral and a closing character. The character the
prefix opens with occurs nowhere else in a marker. So a marker pattern never
matches over the start of another marker (`matcher_append_opening`), and a text
with markers put into it scans, piece by piece, into the markers and the scans of
the texts between them (`scan_flatten`).

`Interleaving` is such a text before it is flattened: a head and a list of
labelled pieces. `splitHits` is `re.split`, the inverse of the scan.
-/

namespace Dsv41Overlay

/-! ### Texts with labels in between -/

/-- A text with labels between its pieces. -/
structure Interleaving (ι α : Type*) where
  head : List α
  tail : List (ι × List α)
deriving Repr, DecidableEq

namespace Interleaving

variable {ι κ α : Type*}

/-- The pieces of text. -/
def texts (x : Interleaving ι α) : List (List α) := x.head :: x.tail.map Prod.snd

/-- The labels. -/
def labels (x : Interleaving ι α) : List ι := x.tail.map Prod.fst

/-- The text with every label written out. -/
def flatten (f : ι → List α) (x : Interleaving ι α) : List α :=
  x.head ++ x.tail.flatMap fun p => f p.1 ++ p.2

/-- Rename the labels. -/
def mapLabels (f : ι → κ) (x : Interleaving ι α) : Interleaving κ α :=
  ⟨x.head, x.tail.map fun p => (f p.1, p.2)⟩

/-- The items of a text whose labels are hits and whose pieces are literals. -/
def items (f : ι → List α) (x : Interleaving ι α) : List (Item α) :=
  x.head.map .lit ++ x.tail.flatMap fun p => .hit (f p.1) :: p.2.map .lit

theorem flatten_mapLabels (f : ι → κ) (g : κ → List α) (x : Interleaving ι α) :
    (x.mapLabels f).flatten g = x.flatten (g ∘ f) := by
  simp [flatten, mapLabels, List.flatMap_map]

/-- A label put before a text. -/
theorem flatten_label (f : ι → List α) (i : ι) (x : Interleaving ι α) :
    (Interleaving.mk [] ((i, x.head) :: x.tail)).flatten f = f i ++ x.flatten f := by
  simp [flatten]

/-- An element of the flattened text stands in a piece or in a label. -/
theorem count_flatten [BEq α] (c : α) (f : ι → List α) (x : Interleaving ι α) :
    (x.flatten f).count c
      = (x.texts.map (List.count c)).sum + (x.labels.map fun i => (f i).count c).sum := by
  obtain ⟨head, tail⟩ := x
  simp only [flatten, texts, labels, List.count_append, List.map_cons, List.sum_cons, List.map_map]
  rw [Nat.add_assoc, Nat.add_left_cancel_iff]
  induction tail with
  | nil => rfl
  | cons p tail ih =>
    rw [List.flatMap_cons, List.count_append, List.count_append, ih]
    simp only [List.map_cons, List.sum_cons, Function.comp_apply]
    ring

end Interleaving

/-- `re.split`: the texts between the hits of a scan. -/
def splitHits {α : Type*} : List (Item α) → Interleaving (List α) α
  | [] => ⟨[], []⟩
  | .lit c :: rest => ⟨c :: (splitHits rest).head, (splitHits rest).tail⟩
  | .hit w :: rest => ⟨[], (w, (splitHits rest).head) :: (splitHits rest).tail⟩

theorem splitHits_lits {α : Type*} (t : List α) (rest : List (Item α)) :
    splitHits (t.map .lit ++ rest) = ⟨t ++ (splitHits rest).head, (splitHits rest).tail⟩ := by
  induction t with
  | nil => rfl
  | cons c t ih => rw [List.map_cons, List.cons_append, splitHits, ih]; rfl

/-- **Splitting undoes interleaving.** -/
theorem splitHits_items {ι α : Type*} (f : ι → List α) (x : Interleaving ι α) :
    splitHits (x.items f) = x.mapLabels f := by
  -- behind the head the items are hits, each with the literals after it
  have htail : ∀ tail : List (ι × List α),
      splitHits (tail.flatMap fun p => .hit (f p.1) :: p.2.map .lit)
        = ⟨[], tail.map fun p => (f p.1, p.2)⟩ := by
    intro tail
    induction tail with
    | nil => rfl
    | cons p tail ih =>
      rw [List.flatMap_cons, List.cons_append, splitHits, splitHits_lits, ih, List.append_nil]
      rfl
  rw [Interleaving.items, splitHits_lits, htail, List.append_nil, Interleaving.mapLabels]

/-- Before the first hit stand the literals of the head. -/
theorem exists_lits_head {α : Type*} (items : List (Item α)) :
    ∃ q, items = (splitHits items).head.map .lit ++ q := by
  induction items with
  | nil => exact ⟨[], rfl⟩
  | cons item items ih =>
    cases item with
    | lit c =>
      obtain ⟨q, hq⟩ := ih
      refine ⟨q, ?_⟩
      show Item.lit c :: items = .lit c :: ((splitHits items).head.map .lit ++ q)
      rw [← hq]
    | hit w => exact ⟨.hit w :: items, rfl⟩

/-- Every text between hits is a run of literals. -/
theorem exists_lits_of_mem_texts {α : Type*} {items : List (Item α)} {u : List α}
    (h : u ∈ (splitHits items).texts) : ∃ p q, items = p ++ u.map .lit ++ q := by
  induction items generalizing u with
  -- the one text of an empty list is empty
  | nil =>
    obtain rfl := List.mem_singleton.mp h
    exact ⟨[], [], rfl⟩
  | cons item items ih =>
    cases item with
    -- a character goes to the first text
    | lit c =>
      rcases List.mem_cons.mp h with rfl | h
      · obtain ⟨q, hq⟩ := exists_lits_head (.lit c :: items)
        exact ⟨[], q, hq⟩
      · obtain ⟨p, q, hpq⟩ := ih (List.mem_cons_of_mem _ h)
        refine ⟨.lit c :: p, q, ?_⟩
        rw [hpq]
        rfl
    -- a hit ends the first text
    | hit w =>
      rcases List.mem_cons.mp h with rfl | h
      · exact ⟨[], .hit w :: items, rfl⟩
      · obtain ⟨p, q, hpq⟩ := ih h
        refine ⟨.hit w :: p, q, ?_⟩
        rw [hpq]
        rfl

section Count

variable {α : Type*} [DecidableEq α] (c : α)

/-- Splitting keeps the literals. -/
theorem count_texts_splitHits (items : List (Item α)) :
    ((splitHits items).texts.map (List.count c)).sum = items.count (.lit c) := by
  induction items with
  | nil => rfl
  | cons item items ih =>
    simp only [Interleaving.texts, List.map_cons, List.sum_cons] at ih
    -- by the head of the list
    cases item with
    | lit d =>
      simp only [splitHits, Interleaving.texts, List.map_cons, List.sum_cons, List.count_cons,
        beq_iff_eq, Item.lit.injEq]
      rw [← ih]
      ring
    | hit w =>
      rw [List.count_cons_of_ne (by simp), ← ih]
      simp [splitHits, Interleaving.texts]

/-- A literal of the items is an element of the text. -/
theorem count_lit_le (items : List (Item α)) :
    items.count (.lit c) ≤ (items.flatMap Item.text).count c := by
  induction items with
  | nil => exact le_rfl
  -- a character inside a hit is not a literal
  | cons item items ih =>
    rw [List.flatMap_cons, List.count_append]
    cases item with
    | lit d =>
      rw [Item.text_lit, List.count_cons, List.count_singleton, Nat.add_comm]
      refine Nat.add_le_add (le_of_eq ?_) ih
      simp only [beq_iff_eq, Item.lit.injEq]
    | hit w =>
      rw [List.count_cons_of_ne (by simp)]
      exact ih.trans (Nat.le_add_left _ _)

/-- An element inside a hit is no literal. -/
theorem count_lit_lt {items : List (Item α)} {w : List α} (hw : .hit w ∈ items) (hc : c ∈ w) :
    items.count (.lit c) < (items.flatMap Item.text).count c := by
  obtain ⟨a, b, rfl⟩ := List.append_of_mem hw
  -- the hit `w` has the character and adds no literal
  have hpos : 0 < w.count c := List.count_pos_iff.mpr hc
  have ha := count_lit_le c a
  have hb := count_lit_le c b
  rw [List.flatMap_append, List.flatMap_cons, Item.text_hit, List.count_append, List.count_append,
    List.count_append, List.count_cons_of_ne (by simp)]
  omega

end Count

/-! ### Markers -/

/-- The shape of a marker: the prefix `opening :: body`, digits, `closing`. -/
structure MarkerShape where
  opening : Char
  body : List Char
  closing : Char
  isDigit : Char → Bool
  opening_not_mem : opening ∉ body
  opening_not_digit : isDigit opening = false
  closing_not_digit : isDigit closing = false
  closing_ne_opening : closing ≠ opening

namespace MarkerShape

variable (k : MarkerShape)

/-- The fixed part a marker starts with. -/
def lead : List Char := k.opening :: k.body

/-- The marker with the given digits. -/
def render (digits : List Char) : List Char := k.lead ++ digits ++ [k.closing]

/-- The marker pattern `lead(\d+)closing`. -/
def pattern : Regex Char :=
  .seq (Regex.literal k.lead) (.seq (.plus k.isDigit) (.char k.closing))

/-- The matcher of the marker pattern. -/
def matcher : Matcher Char := k.pattern.matcher

/-- `match.group(1)`: the digits of a marker. -/
def digitsOf (marker : List Char) : List Char := (marker.drop k.lead.length).dropLast

/-- The digits of a numbered marker. -/
def IsNumeral (digits : List Char) : Prop := digits ≠ [] ∧ ∀ c ∈ digits, k.isDigit c = true

variable {k}

theorem length_render (digits : List Char) :
    (k.render digits).length = k.lead.length + digits.length + 1 := by
  simp [render]
  omega

theorem render_ne_nil (digits : List Char) : k.render digits ≠ [] := by
  simp [render, lead]

@[simp] theorem digitsOf_render (digits : List Char) : k.digitsOf (k.render digits) = digits := by
  rw [digitsOf, render, List.append_assoc, List.drop_left, List.dropLast_concat]

/-- The results of `\d+` followed by the closing character: the closing character
must follow the whole run of digits, since it is none itself. -/
theorem results_digits_closing (s : List Char) :
    (Regex.seq (.plus k.isDigit) (.char k.closing)).results s
      = if s.takeWhile k.isDigit ≠ [] ∧ (s.dropWhile k.isDigit).head? = some k.closing
        then [(s.dropWhile k.isDigit).tail] else [] := by
  -- what is behind the whole run of digits
  have hdrop : s.drop (s.takeWhile k.isDigit).length = s.dropWhile k.isDigit := by
    conv_lhs => rw [← List.takeWhile_append_dropWhile (p := k.isDigit) (l := s)]
    rw [List.drop_left']
    rw [List.takeWhile_append_dropWhile]
  rw [Regex.results, Regex.results]
  cases hrun : s.takeWhile k.isDigit with
  | nil => simp
  | cons d ds =>
    -- giving back digits leaves a digit, which is not the closing character
    have hrest : ∀ i < ds.length,
        (Regex.char k.closing).results (s.drop (ds.length + 1 - (i + 1))) = [] := by
      intro i hi
      have hlt : ds.length + 1 - (i + 1) < (s.takeWhile k.isDigit).length := by
        rw [hrun, List.length_cons]
        omega
      have hget := List.getElem_mem hlt
      have hdigit := List.mem_takeWhile_imp hget
      have hpre := List.takeWhile_prefix k.isDigit (l := s)
      have hlt' : ds.length + 1 - (i + 1) < s.length := lt_of_lt_of_le hlt hpre.length_le
      rw [List.drop_eq_getElem_cons hlt', Regex.results, if_neg]
      intro heq
      rw [← hpre.getElem hlt] at heq
      rw [heq, k.closing_not_digit] at hdigit
      exact Bool.noConfusion hdigit
    rw [List.length_cons, List.range_succ_eq_map, List.map_cons, List.flatMap_cons, List.map_map,
      List.flatMap_map]
    -- so only the longest run can be followed by the closing character
    have hnil : (List.range ds.length).flatMap
        (fun i => (Regex.char k.closing).results (s.drop (ds.length + 1 - (i + 1)))) = [] :=
      List.flatMap_eq_nil_iff.mpr fun i hi => hrest i (List.mem_range.mp hi)
    rw [hrun, List.length_cons] at hdrop
    rw [Nat.sub_zero, hdrop]
    refine (congrArg (_ ++ ·) hnil).trans ?_
    rw [List.append_nil]
    cases s.dropWhile k.isDigit with
    | nil => simp [Regex.results]
    | cons c u => simp [Regex.results]

/-- The results of the marker pattern. -/
theorem results_pattern (s : List Char) :
    k.pattern.results s = if k.lead <+: s then
        (Regex.seq (.plus k.isDigit) (.char k.closing)).results (s.drop k.lead.length)
      else [] := by
  rw [pattern, Regex.results, Regex.results_literal]
  split
  · rw [List.flatMap_singleton]
  · rfl

/-- **The head of a text matches the pattern** when a marker stands there. -/
theorem matcher_eq_some_iff {s : List Char} {n : ℕ} :
    k.matcher s = some n ↔
      ∃ digits u, k.IsNumeral digits ∧ s = k.render digits ++ u ∧ n = (k.render digits).length := by
  rw [matcher, Regex.matcher, results_pattern]
  constructor
  · intro h
    split at h
    · next hlead =>
      obtain ⟨rest, rfl⟩ := hlead
      rw [List.drop_left, results_digits_closing] at h
      split at h
      · next hc =>
        obtain ⟨hne, hhead⟩ := hc
        -- the digits of the marker are the longest run
        obtain ⟨u, hu⟩ : ∃ u, rest.dropWhile k.isDigit = k.closing :: u :=
          ⟨_, (List.cons_head?_tail hhead).symm⟩
        have hrest : rest = rest.takeWhile k.isDigit ++ k.closing :: u := by
          rw [← hu, List.takeWhile_append_dropWhile]
        refine ⟨rest.takeWhile k.isDigit, u, ⟨hne, fun c hc => List.mem_takeWhile_imp hc⟩, ?_, ?_⟩
        · conv_lhs => rw [hrest]
          simp [render]
        · rw [hu] at h
          simp only [List.head?_cons, Option.map_some, List.tail_cons, Option.some.injEq] at h
          rw [← h, length_render]
          conv_lhs => rw [hrest]
          simp only [List.length_append, List.length_cons]
          omega
      · exact absurd h (by simp)
    · exact absurd h (by simp)
  -- a numeral between the lead and the closing is matched
  · rintro ⟨digits, u, ⟨hne, hdigits⟩, rfl, rfl⟩
    have hs : k.render digits ++ u = k.lead ++ (digits ++ k.closing :: u) := by simp [render]
    have htake : (digits ++ k.closing :: u).takeWhile k.isDigit = digits := by
      rw [List.takeWhile_append_of_pos hdigits, List.takeWhile_cons_of_neg, List.append_nil]
      rw [k.closing_not_digit]
      exact Bool.false_ne_true
    have hdropw : (digits ++ k.closing :: u).dropWhile k.isDigit = k.closing :: u := by
      rw [List.dropWhile_append_of_pos hdigits, List.dropWhile_cons_of_neg]
      rw [k.closing_not_digit]
      exact Bool.false_ne_true
    rw [hs, if_pos (List.prefix_append _ _), List.drop_left, results_digits_closing, htake, hdropw,
      if_pos ⟨hne, rfl⟩, List.head?_cons, Option.map_some, List.tail_cons, length_render]
    simp only [List.length_append, List.length_cons, Option.some.injEq]
    omega

theorem matcher_bounded (k : MarkerShape) : k.matcher.Bounded := by
  intro s n h
  obtain ⟨digits, u, -, rfl, rfl⟩ := matcher_eq_some_iff.mp h
  rw [List.length_append]
  exact Nat.le_add_right _ _

/-- A hit of the pattern is a marker. -/
theorem exists_render_of_hit {w t : List Char} (h : .hit w ∈ scan k.matcher t) :
    ∃ digits, k.IsNumeral digits ∧ w = k.render digits := by
  obtain ⟨p, q, hpq⟩ := List.append_of_mem h
  obtain ⟨-, hmatch, -⟩ := scan_eq_append_hit (matcher_bounded k) hpq
  obtain ⟨digits, u, hd, hs, hn⟩ := matcher_eq_some_iff.mp hmatch
  exact ⟨digits, hd, (List.append_inj hs hn).1⟩

/-- The opening character occurs once in a marker. -/
theorem opening_not_mem_tail {digits : List Char} (h : k.IsNumeral digits) :
    k.opening ∉ (k.render digits).tail := by
  rw [render, lead, List.cons_append, List.cons_append, List.tail_cons, List.mem_append,
    List.mem_append, List.mem_singleton]
  rintro ((hmem | hmem) | heq)
  · exact k.opening_not_mem hmem
  · have := h.2 _ hmem
    rw [k.opening_not_digit] at this
    exact Bool.noConfusion this
  · exact k.closing_ne_opening heq.symm

/-- A marker that is cut short matches nowhere. -/
theorem scan_take_render {digits : List Char} (h : k.IsNumeral digits) {j : ℕ}
    (hj : j < (k.render digits).length) :
    scan k.matcher ((k.render digits).take j) = ((k.render digits).take j).map .lit := by
  refine scan_eq_map_lit_iff.mpr fun a b hab hb => ?_
  by_contra hf
  obtain ⟨n, hn⟩ := fires_iff.mp (Bool.eq_true_of_not_eq_false hf)
  obtain ⟨ds, u, hds, rfl, -⟩ := matcher_eq_some_iff.mp hn
  cases a with
  | cons c a =>
    -- the opening character would occur a second time
    refine opening_not_mem_tail h ?_
    rw [← List.take_append_drop j (k.render digits), hab, List.cons_append, List.cons_append,
      List.tail_cons, List.append_assoc]
    exact List.mem_append_right _ (List.mem_append_left _ (List.mem_append_left _
      (List.mem_append_left _ (List.mem_append_left _ (List.mem_cons_self ..)))))
  | nil =>
    -- the whole marker would match with the length of the shorter one
    rw [List.nil_append] at hab
    have hpre : k.render digits = k.render ds ++ (u ++ (k.render digits).drop j) := by
      rw [← List.append_assoc, ← hab, List.take_append_drop]
    have hfull := matcher_eq_some_iff.mpr ⟨digits, [], h, (List.append_nil _).symm, rfl⟩
    have hshort := matcher_eq_some_iff.mpr ⟨ds, _, hds, hpre, rfl⟩
    rw [hfull, Option.some.injEq] at hshort
    have hlen := congrArg List.length hab
    rw [List.length_take, List.length_append] at hlen
    omega

/-- **No match runs over the start of a marker.** Inside a text the pattern
answers as if the text ended where the next opening character stands. -/
theorem matcher_append_opening {t u : List Char} (ht : t ≠ []) :
    k.matcher (t ++ k.opening :: u) = k.matcher t := by
  have hiff : ∀ n, k.matcher (t ++ k.opening :: u) = some n ↔ k.matcher t = some n := by
    intro n
    rw [matcher_eq_some_iff, matcher_eq_some_iff]
    constructor
    · rintro ⟨digits, v, hd, hs, rfl⟩
      -- the match ends inside `t`: it holds the opening character only at its head
      have hle : (k.render digits).length ≤ t.length := by
        by_contra hlt
        have hget : (k.render digits)[t.length]? = some k.opening := by
          have := congrArg (·[t.length]?) hs
          rw [List.getElem?_append_right le_rfl, Nat.sub_self,
            List.getElem?_append_left (Nat.lt_of_not_le hlt)] at this
          exact this.symm
        have hpos : 0 < t.length := List.length_pos_of_ne_nil ht
        refine opening_not_mem_tail hd ?_
        refine List.mem_of_getElem? (i := t.length - 1) ?_
        rw [List.getElem?_tail, Nat.sub_add_cancel hpos, hget]
      obtain ⟨w, rfl⟩ : ∃ w, t = k.render digits ++ w := by
        have hpre : k.render digits <+: t ++ k.opening :: u := ⟨v, hs.symm⟩
        obtain ⟨w, hw⟩ := List.prefix_of_prefix_length_le hpre (List.prefix_append _ _) hle
        exact ⟨w, hw.symm⟩
      exact ⟨digits, w, hd, rfl, rfl⟩
    · rintro ⟨digits, w, hd, rfl, rfl⟩
      exact ⟨digits, w ++ k.opening :: u, hd, List.append_assoc _ _ _, rfl⟩
  -- the two matchers agree on every answer
  cases h : k.matcher t with
  | some n => exact (hiff n).mpr h
  | none =>
    cases h' : k.matcher (t ++ k.opening :: u) with
    | none => rfl
    | some n =>
      rw [(hiff n).mp h'] at h
      exact h

/-- A marker in a text is a hit. -/
theorem scan_render {digits : List Char} (h : k.IsNumeral digits) (u : List Char) :
    scan k.matcher (k.render digits ++ u) = .hit (k.render digits) :: scan k.matcher u :=
  (scan_hit_iff (matcher_bounded k) (render_ne_nil digits)).mpr
    ⟨matcher_eq_some_iff.mpr ⟨digits, u, h, rfl, rfl⟩, rfl⟩

/-- A text before a marker scans as it does alone. -/
theorem scan_append_render (t : List Char) {digits : List Char} (h : k.IsNumeral digits)
    (u : List Char) :
    scan k.matcher (t ++ (k.render digits ++ u))
      = scan k.matcher t ++ .hit (k.render digits) :: scan k.matcher u := by
  rw [← scan_render h]
  refine scan_append (matcher_bounded k) fun a b _ hb => ?_
  exact matcher_append_opening hb

/-- A text without the opening character does not help to spell a lead. -/
theorem lead_infix_append_left {s t : List Char} (hs : k.opening ∉ s) :
    k.lead <:+: s ++ t ↔ k.lead <:+: t := by
  refine ⟨fun h => ?_, fun h => h.trans (List.suffix_append s t).isInfix⟩
  -- a lead across the border would start with the opening character in the left part
  obtain hocc | hocc | ⟨a, b, hab, ha, hb⟩ := List.infix_append_iff.mp h
  · exact absurd (hocc.subset (List.mem_cons_self ..)) hs
  · exact hocc
  · cases a with
    | nil =>
      rw [List.nil_append] at hab
      rw [hab]
      exact hb.isInfix
    | cons c a =>
      obtain ⟨rfl, -⟩ := List.cons.inj hab
      exact absurd (ha.subset (List.mem_cons_self ..)) hs

/-- A lead does not run into the start of a marker, whole or cut short. -/
theorem lead_infix_append_right {t q : List Char} (ht : ¬ k.lead <:+: t)
    (hq : ∀ c ∈ q.head?, c = k.opening) : k.lead <:+: t ++ q ↔ k.lead <:+: q := by
  refine ⟨fun h => ?_, fun h => h.trans (List.suffix_append t q).isInfix⟩
  -- a lead across the border ends in the right part
  obtain hocc | hocc | ⟨a, b, hab, ha, hb⟩ := List.infix_append_iff.mp h
  · exact absurd hocc ht
  · exact hocc
  · cases a with
    | nil =>
      rw [List.nil_append] at hab
      rw [hab]
      exact hb.isInfix
    | cons c a =>
      obtain ⟨rfl, hbody⟩ := List.cons.inj hab
      cases b with
      | nil =>
        rw [List.append_nil] at hab
        rw [hab] at ht
        exact absurd ha.isInfix ht
      | cons d b =>
        -- the start of the marker would be a character of the lead's body
        obtain ⟨u, rfl⟩ := hb
        obtain rfl := hq d rfl
        refine absurd ?_ k.opening_not_mem
        rw [hbody]
        exact List.mem_append_right a (List.mem_cons_self ..)

section Flatten

variable {ι : Type*} {digits : ι → List Char}

/-- **A text with markers put into it** scans into the markers and the scans of
its pieces. -/
theorem scan_flatten (x : Interleaving ι Char) (h : ∀ i ∈ x.labels, k.IsNumeral (digits i)) :
    scan k.matcher (x.flatten fun i => k.render (digits i))
      = scan k.matcher x.head ++ x.tail.flatMap fun p =>
          .hit (k.render (digits p.1)) :: scan k.matcher p.2 := by
  obtain ⟨head, tail⟩ := x
  unfold Interleaving.flatten Interleaving.labels at *
  dsimp only at *
  -- induction on the markers; each one cuts the scan in two
  induction tail generalizing head with
  | nil => simp
  | cons p tail ih =>
    have hp := h p.1 (List.mem_map_of_mem (List.mem_cons_self ..))
    rw [List.flatMap_cons, List.append_assoc, scan_append_render head hp, List.flatMap_cons,
      List.cons_append, ih p.2 fun i hi => h i (List.mem_cons_of_mem _ hi)]

/-- When no piece holds a marker, the scan is the interleaving itself. -/
theorem scan_flatten_of_plain (x : Interleaving ι Char)
    (h : ∀ i ∈ x.labels, k.IsNumeral (digits i))
    (hplain : ∀ t ∈ x.texts, scan k.matcher t = t.map .lit) :
    scan k.matcher (x.flatten fun i => k.render (digits i))
      = x.items fun i => k.render (digits i) := by
  rw [scan_flatten x h, hplain _ (List.mem_cons_self ..), Interleaving.items]
  refine congrArg (_ ++ ·) ?_
  refine List.flatMap_congr fun p hp => ?_
  rw [hplain p.2 (List.mem_cons_of_mem _ (List.mem_map_of_mem hp))]

/-- The literals of a text with markers are those of its pieces. -/
theorem count_lit_scan_flatten (c : Char) (x : Interleaving ι Char)
    (h : ∀ i ∈ x.labels, k.IsNumeral (digits i)) :
    (scan k.matcher (x.flatten fun i => k.render (digits i))).count (.lit c)
      = (x.texts.map fun t => (scan k.matcher t).count (.lit c)).sum := by
  rw [scan_flatten x h, Interleaving.texts, List.map_cons, List.sum_cons, List.count_append,
    Nat.add_left_cancel_iff]
  generalize x.tail = tail
  induction tail with
  | nil => rfl
  | cons p tail ih =>
    rw [List.flatMap_cons, List.count_append, List.count_cons_of_ne (by simp), ih]
    rfl

end Flatten

end MarkerShape

end Dsv41Overlay
