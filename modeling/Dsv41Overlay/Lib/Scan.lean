import Mathlib.Data.Bool.Basic
import Mathlib.Data.List.Basic
import Mathlib.Data.List.Infix
import Mathlib.Tactic.Common

/-!
# Scanning a text with a matcher

A matcher looks at the head of a text and answers with the length of the match
there, if any. `scan` is what `re.finditer` and `re.sub` do with one: walk the
text from left to right, take a match where the matcher fires and a literal
elsewhere, and go on behind the match. Its result lists the literals and hits in
order, so positions and text can both be read off it.

The lemmas read a scan from the left (`scan_lits_iff`, `scan_hit_iff`) and cut
it in two where no match runs over the cut (`scan_append`).

`longest words` is the matcher of a finite set of words that prefers the longest
one.
-/

namespace Dsv41Overlay

variable {α : Type*}

/-! ### Items -/

/-- A piece of a scanned text. -/
inductive Item (α : Type*)
  /-- An element outside every match. -/
  | lit (c : α)
  /-- A match. -/
  | hit (w : List α)
deriving Repr, DecidableEq

namespace Item

/-- The text an item stands for. -/
def text : Item α → List α
  | lit c => [c]
  | hit w => w

@[simp] theorem text_lit (c : α) : (lit c).text = [c] := rfl
@[simp] theorem text_hit (w : List α) : (hit w).text = w := rfl

end Item

/-- Literals spell their own text. -/
@[simp] theorem flatMap_text_map_lit (s : List α) : (s.map Item.lit).flatMap Item.text = s := by
  induction s with
  | nil => rfl
  | cons c s ih => rw [List.map_cons, List.flatMap_cons, ih, Item.text_lit, List.singleton_append]

/-! ### Matchers -/

/-- The length of the match at the head of a text, if any. -/
abbrev Matcher (α : Type*) := List α → Option ℕ

/-- A match lies inside the text. -/
def Matcher.Bounded (m : Matcher α) : Prop := ∀ s n, m s = some n → n ≤ s.length

/-- The matcher has a non-empty match at the head of `s`. -/
def fires (m : Matcher α) (s : List α) : Bool :=
  match m s with
  | some (_ + 1) => true
  | _ => false

theorem fires_iff {m : Matcher α} {s : List α} : fires m s = true ↔ ∃ n, m s = some (n + 1) := by
  unfold fires
  split
  · next n h => exact ⟨fun _ => ⟨n, h⟩, fun _ => rfl⟩
  · next h =>
    refine ⟨fun hc => absurd hc (by simp), ?_⟩
    rintro ⟨n, hn⟩
    exact absurd hn (h n)

/-- `re.search` is not `None`: the matcher answers somewhere in the text. -/
def occurs (m : Matcher α) (s : List α) : Bool := s.tails.any fun t => (m t).isSome

theorem occurs_iff {m : Matcher α} {s : List α} :
    occurs m s = true ↔ ∃ a b, s = a ++ b ∧ (m b).isSome = true := by
  unfold occurs
  rw [List.any_eq_true]
  constructor
  · rintro ⟨b, hb, h⟩
    obtain ⟨a, rfl⟩ := (List.mem_tails _ _).mp hb
    exact ⟨a, b, rfl, h⟩
  · rintro ⟨a, b, rfl, h⟩
    exact ⟨b, (List.mem_tails _ _).mpr ⟨a, rfl⟩, h⟩

/-- A text without an occurrence has no firing suffix. -/
theorem not_fires_of_not_occurs {m : Matcher α} {s : List α} (h : occurs m s = false)
    {a b : List α} (hs : s = a ++ b) : fires m b = false := by
  by_contra hf
  obtain ⟨n, hn⟩ := fires_iff.mp (Bool.eq_true_of_not_eq_false hf)
  have : occurs m s = true := occurs_iff.mpr ⟨a, b, hs, by rw [hn]; rfl⟩
  rw [h] at this
  exact Bool.noConfusion this

/-! ### Scanning -/

/-- The scan, `skip` elements before the end of the current match. -/
def scanFrom (m : Matcher α) : ℕ → List α → List (Item α)
  | _, [] => []
  | skip + 1, _ :: s => scanFrom m skip s
  | 0, c :: s =>
    -- a match of length 0 would not move on, so it counts as none
    match m (c :: s) with
    | some (n + 1) => .hit ((c :: s).take (n + 1)) :: scanFrom m n s
    | _ => .lit c :: scanFrom m 0 s

/-- The literals and matches of a text, leftmost first and not overlapping. -/
def scan (m : Matcher α) (s : List α) : List (Item α) := scanFrom m 0 s

section Scan

variable {m : Matcher α}

@[simp] theorem scan_nil : scan m [] = [] := rfl

theorem scanFrom_eq (skip : ℕ) (s : List α) : scanFrom m skip s = scan m (s.drop skip) := by
  induction skip generalizing s with
  | zero => rfl
  | succ skip ih =>
    cases s with
    | nil => rfl
    | cons c s => exact ih s

theorem scan_cons_of_not_fires {c : α} {s : List α} (h : fires m (c :: s) = false) :
    scan m (c :: s) = .lit c :: scan m s := by
  rw [scan, scanFrom]
  split
  · next n hn =>
    rw [fires_iff.mpr ⟨n, hn⟩] at h
    exact Bool.noConfusion h
  · rfl

theorem scan_of_match {s : List α} {n : ℕ} (hs : s ≠ []) (h : m s = some (n + 1)) :
    scan m s = .hit (s.take (n + 1)) :: scan m (s.drop (n + 1)) := by
  cases s with
  | nil => exact absurd rfl hs
  | cons c s =>
    rw [scan, scanFrom, h]
    exact congrArg (_ :: ·) (scanFrom_eq n s)

/-- **A scan loses nothing.** -/
@[simp] theorem flatMap_text_scan (m : Matcher α) (s : List α) :
    (scan m s).flatMap Item.text = s := by
  -- strong induction: a hit jumps over its whole match
  induction hn : s.length using Nat.strong_induction_on generalizing s with
  | _ n ih =>
    cases s with
    | nil => rfl
    | cons c s =>
      -- a hit or a single character
      by_cases hf : fires m (c :: s) = true
      · obtain ⟨k, hk⟩ := fires_iff.mp hf
        rw [scan_of_match (List.cons_ne_nil _ _) hk, List.flatMap_cons, Item.text_hit,
          ih _ (by rw [← hn, List.length_drop, List.length_cons]; omega) _ rfl,
          List.take_append_drop]
      · rw [scan_cons_of_not_fires (Bool.eq_false_of_not_eq_true hf), List.flatMap_cons,
          Item.text_lit, ih _ (by rw [← hn, List.length_cons]; omega) _ rfl,
          List.singleton_append]

/-- **Reading literals off a scan.** The scan starts with the literals of `t`
exactly when the matcher fires nowhere in `t`, with what follows in view. -/
theorem scan_lits_iff {t u : List α} {items : List (Item α)} :
    scan m (t ++ u) = t.map .lit ++ items ↔
      (∀ a b, t = a ++ b → b ≠ [] → fires m (b ++ u) = false) ∧ scan m u = items := by
  induction t with
  | nil =>
    -- nothing to scan over
    refine ⟨fun h => ⟨fun a b hab hb => ?_, h⟩, fun h => h.2⟩
    exact absurd (List.append_eq_nil_iff.mp hab.symm).2 hb
  | cons c t ih =>
    rw [List.cons_append, List.map_cons, List.cons_append]
    -- firing at the first character makes the first item a hit
    by_cases hf : fires m (c :: (t ++ u)) = true
    · refine ⟨fun h => ?_, fun h => ?_⟩
      · obtain ⟨n, hn⟩ := fires_iff.mp hf
        rw [scan_of_match (List.cons_ne_nil _ _) hn] at h
        exact absurd (List.cons.inj h).1 (by simp)
      · have := h.1 [] (c :: t) rfl (List.cons_ne_nil _ _)
        rw [List.cons_append, hf] at this
        exact Bool.noConfusion this
    · rw [scan_cons_of_not_fires (Bool.eq_false_of_not_eq_true hf), List.cons.injEq, ih,
        eq_self_iff_true, true_and]
      refine and_congr_left fun _ => ⟨fun h a b hab hb => ?_, fun h a b hab hb => ?_⟩
      · cases a with
        | nil =>
          obtain rfl : c :: t = b := hab
          exact Bool.eq_false_of_not_eq_true hf
        | cons d a => exact h a b (List.cons.inj hab).2 hb
      · exact h (c :: a) b (by rw [hab, List.cons_append]) hb

/-- **Reading a hit off a scan.** -/
theorem scan_hit_iff (hm : m.Bounded) {w u : List α} (hw : w ≠ []) {items : List (Item α)} :
    scan m (w ++ u) = .hit w :: items ↔ m (w ++ u) = some w.length ∧ scan m u = items := by
  -- `w` is a match exactly when the matcher answers with its length
  have hpos : 0 < w.length := List.length_pos_of_ne_nil hw
  have hne : w ++ u ≠ [] := fun h => hw (List.append_eq_nil_iff.mp h).1
  constructor
  · intro h
    by_cases hf : fires m (w ++ u) = true
    · obtain ⟨n, hn⟩ := fires_iff.mp hf
      rw [scan_of_match hne hn, List.cons.injEq, Item.hit.injEq] at h
      obtain ⟨htake, hrest⟩ := h
      -- the match lies inside the text, so its length is that of `w`
      have hlen : n + 1 = w.length := by
        have := congrArg List.length htake
        rwa [List.length_take, Nat.min_eq_left (hm _ _ hn)] at this
      rw [hlen] at hn hrest
      rw [List.drop_left] at hrest
      exact ⟨hn, hrest⟩
    · cases w with
      | nil => exact absurd rfl hw
      | cons c w =>
        have hf' : fires m (c :: (w ++ u)) = false := Bool.eq_false_of_not_eq_true hf
        rw [List.cons_append, scan_cons_of_not_fires hf'] at h
        exact absurd (List.cons.inj h).1 (by simp)
  · rintro ⟨h, rfl⟩
    obtain ⟨n, hn⟩ := Nat.exists_eq_add_of_lt hpos
    rw [Nat.zero_add] at hn
    rw [hn] at h
    rw [scan_of_match hne h, ← hn, List.take_left, List.drop_left]

/-- **Cutting a scan in two.** When the matcher answers inside `t` as if `t`
ended there, no match runs over its end. -/
theorem scan_append (hm : m.Bounded) {t u : List α}
    (h : ∀ a b, t = a ++ b → b ≠ [] → m (b ++ u) = m b) :
    scan m (t ++ u) = scan m t ++ scan m u := by
  induction hn : t.length using Nat.strong_induction_on generalizing t with
  | _ n ih =>
    cases t with
    | nil => rfl
    | cons c t =>
      -- the matcher answers at the head as it does on `t` alone
      have hhead := h [] (c :: t) rfl (List.cons_ne_nil _ _)
      by_cases hf : fires m (c :: t) = true
      · obtain ⟨k, hk⟩ := fires_iff.mp hf
        have hle := hm _ _ hk
        rw [scan_of_match (List.cons_ne_nil _ _) hk,
          scan_of_match (s := c :: t ++ u) (by simp) (hhead.trans hk),
          List.take_append_of_le_length hle, List.drop_append_of_le_length hle, List.cons_append]
        refine congrArg (_ :: ·) (ih _ ?_ (fun a b hab hb => ?_) rfl)
        · rw [← hn, List.length_drop, List.length_cons]
          omega
        · refine h ((c :: t).take (k + 1) ++ a) b ?_ hb
          rw [List.append_assoc, ← hab, List.take_append_drop]
      · have hf' := Bool.eq_false_of_not_eq_true hf
        have hfu : fires m (c :: (t ++ u)) = false := by
          unfold fires at hf' ⊢
          rw [List.cons_append] at hhead
          rwa [hhead]
        rw [List.cons_append, scan_cons_of_not_fires hfu, scan_cons_of_not_fires hf',
          List.cons_append]
        refine congrArg (_ :: ·) (ih _ ?_ (fun a b hab hb => ?_) rfl)
        · rw [← hn, List.length_cons]
          omega
        · exact h (c :: a) b (by rw [hab, List.cons_append]) hb

/-- A text scans to literals exactly when the matcher fires nowhere in it. -/
theorem scan_eq_map_lit_iff {t : List α} :
    scan m t = t.map .lit ↔ ∀ a b, t = a ++ b → b ≠ [] → fires m b = false := by
  have h := @scan_lits_iff _ m t [] []
  rw [List.append_nil, List.append_nil] at h
  rw [h, scan_nil, eq_self_iff_true, and_true]
  simp only [List.append_nil]

/-- Items without a hit are literals. -/
theorem eq_map_lit_of_no_hit {items : List (Item α)} (h : ∀ w, .hit w ∉ items) :
    items = (items.flatMap Item.text).map .lit := by
  induction items with
  | nil => rfl
  | cons i items ih =>
    cases i with
    | hit w => exact absurd (List.mem_cons_self ..) (h w)
    | lit c =>
      have hrest := ih fun w hw => h w (List.mem_cons_of_mem _ hw)
      rw [List.flatMap_cons, Item.text_lit, List.singleton_append, List.map_cons, ← hrest]

/-- Where the matcher fires, the scan has a hit. -/
theorem exists_hit_of_fires (hm : m.Bounded) {t a b : List α} (hab : t = a ++ b)
    (hf : fires m b = true) : ∃ w, .hit w ∈ scan m t := by
  by_contra hnone
  push Not at hnone
  -- without a hit the scan is the text itself, on which nothing fires
  have hlits : scan m t = t.map .lit := by
    rw [eq_map_lit_of_no_hit hnone, flatMap_text_scan]
  have hb : b ≠ [] := by
    rintro rfl
    obtain ⟨n, hn⟩ := fires_iff.mp hf
    exact absurd (hm _ _ hn) (by simp)
  rw [scan_eq_map_lit_iff.mp hlits a b hab hb] at hf
  exact Bool.noConfusion hf

/-- **Every hit is a match** of the text from its position on, and the scan goes
on behind it. -/
theorem scan_eq_append_hit (hm : m.Bounded) {t : List α} {p q : List (Item α)} {w : List α}
    (h : scan m t = p ++ .hit w :: q) :
    w ≠ [] ∧ m (w ++ q.flatMap Item.text) = some w.length ∧ scan m (q.flatMap Item.text) = q := by
  -- induction on the items before the hit
  induction p generalizing t with
  | nil =>
    cases t with
    | nil => exact absurd h (by simp)
    | cons c t =>
      by_cases hf : fires m (c :: t) = true
      · obtain ⟨n, hn⟩ := fires_iff.mp hf
        rw [scan_of_match (List.cons_ne_nil _ _) hn, List.nil_append, List.cons.injEq,
          Item.hit.injEq] at h
        obtain ⟨rfl, rfl⟩ := h
        rw [flatMap_text_scan, List.take_append_drop, List.length_take,
          Nat.min_eq_left (hm _ _ hn)]
        exact ⟨by simp, hn, rfl⟩
      · rw [scan_cons_of_not_fires (Bool.eq_false_of_not_eq_true hf), List.nil_append] at h
        exact absurd (List.cons.inj h).1 (by simp)
  | cons i p ih =>
    cases t with
    | nil => exact absurd h (by simp)
    | cons c t =>
      by_cases hf : fires m (c :: t) = true
      · obtain ⟨n, hn⟩ := fires_iff.mp hf
        rw [scan_of_match (List.cons_ne_nil _ _) hn] at h
        exact ih (List.cons.inj h).2
      · rw [scan_cons_of_not_fires (Bool.eq_false_of_not_eq_true hf)] at h
        exact ih (List.cons.inj h).2

/-- At a literal the matcher does not fire. -/
theorem scan_eq_append_lit {t : List α} {p q : List (Item α)} {c : α}
    (h : scan m t = p ++ .lit c :: q) : fires m (c :: q.flatMap Item.text) = false := by
  induction p generalizing t with
  | nil =>
    cases t with
    | nil => exact absurd h (by simp)
    | cons d t =>
      by_cases hf : fires m (d :: t) = true
      · obtain ⟨n, hn⟩ := fires_iff.mp hf
        rw [scan_of_match (List.cons_ne_nil _ _) hn, List.nil_append] at h
        exact absurd (List.cons.inj h).1 (by simp)
      · have hf' := Bool.eq_false_of_not_eq_true hf
        rw [scan_cons_of_not_fires hf', List.nil_append, List.cons.injEq, Item.lit.injEq] at h
        obtain ⟨rfl, rfl⟩ := h
        rwa [flatMap_text_scan]
  | cons i p ih =>
    cases t with
    | nil => exact absurd h (by simp)
    | cons d t =>
      by_cases hf : fires m (d :: t) = true
      · obtain ⟨n, hn⟩ := fires_iff.mp hf
        rw [scan_of_match (List.cons_ne_nil _ _) hn] at h
        exact ih (List.cons.inj h).2
      · rw [scan_cons_of_not_fires (Bool.eq_false_of_not_eq_true hf)] at h
        exact ih (List.cons.inj h).2

/-- The texts of the matches, in order. -/
def hits (items : List (Item α)) : List (List α) :=
  items.filterMap fun
    | .lit _ => none
    | .hit w => some w

end Scan

/-! ### The longest word of a set -/

section Longest

variable [DecidableEq α]

/-- The matcher that takes the longest of `words` at the head of the text. -/
def longest (words : List (List α)) : Matcher α := fun s =>
  ((words.filter fun w => decide (w <+: s)).map List.length).max?

variable {words : List (List α)} {s : List α}

theorem longest_eq_none_iff : longest words s = none ↔ ∀ w ∈ words, ¬ w <+: s := by
  unfold longest
  rw [List.max?_eq_none_iff, List.map_eq_nil_iff, List.filter_eq_nil_iff]
  exact forall_congr' fun w => forall_congr' fun _ => by rw [decide_eq_true_eq]

/-- **The longest word at the head of a text.** -/
theorem longest_eq_some_iff {n : ℕ} :
    longest words s = some n ↔
      (∃ w ∈ words, w <+: s ∧ w.length = n) ∧ ∀ w ∈ words, w <+: s → w.length ≤ n := by
  unfold longest
  rw [List.max?_eq_some_iff]
  constructor
  · rintro ⟨hmem, hmax⟩
    obtain ⟨w, hw, hlen⟩ := List.mem_map.mp hmem
    rw [List.mem_filter, decide_eq_true_eq] at hw
    refine ⟨⟨w, hw.1, hw.2, hlen⟩, fun v hv hpre => hmax _ ?_⟩
    exact List.mem_map_of_mem (List.mem_filter.mpr ⟨hv, decide_eq_true hpre⟩)
  · rintro ⟨⟨w, hw, hpre, hlen⟩, hmax⟩
    refine ⟨?_, fun b hb => ?_⟩
    · rw [← hlen]
      exact List.mem_map_of_mem (List.mem_filter.mpr ⟨hw, decide_eq_true hpre⟩)
    · obtain ⟨v, hv, rfl⟩ := List.mem_map.mp hb
      rw [List.mem_filter, decide_eq_true_eq] at hv
      exact hmax v hv.1 hv.2

theorem longest_bounded (words : List (List α)) : (longest words).Bounded := by
  intro s n h
  obtain ⟨⟨w, -, hpre, rfl⟩, -⟩ := longest_eq_some_iff.mp h
  exact hpre.length_le

/-- Some word lies at the head of the text. -/
theorem isSome_longest_iff : (longest words s).isSome = true ↔ ∃ w ∈ words, w <+: s := by
  rw [← not_iff_not, Bool.not_eq_true, Option.isSome_eq_false_iff, Option.isNone_iff_eq_none,
    longest_eq_none_iff]
  push Not
  exact Iff.rfl

/-- A word occurs in a text when it is an infix of it. -/
theorem occurs_longest_iff : occurs (longest words) s = true ↔ ∃ w ∈ words, w <:+: s := by
  rw [occurs_iff]
  constructor
  · rintro ⟨a, b, rfl, h⟩
    obtain ⟨w, hw, c, rfl⟩ := isSome_longest_iff.mp h
    exact ⟨w, hw, a, c, List.append_assoc _ _ _⟩
  · rintro ⟨w, hw, a, c, rfl⟩
    exact ⟨a, w ++ c, List.append_assoc _ _ _, isSome_longest_iff.mpr ⟨w, hw, c, rfl⟩⟩

/-- A non-empty word at the head of the text makes the matcher fire. -/
theorem fires_longest {w : List α} (hw : w ∈ words) (hne : w ≠ []) (hpre : w <+: s) :
    fires (longest words) s = true := by
  obtain ⟨n, hn⟩ := Option.isSome_iff_exists.mp (isSome_longest_iff.mpr ⟨w, hw, hpre⟩)
  have hlen : w.length ≤ n := (longest_eq_some_iff.mp hn).2 w hw hpre
  have hpos : 0 < n := lt_of_lt_of_le (List.length_pos_of_ne_nil hne) hlen
  exact fires_iff.mpr ⟨n - 1, by rw [hn, Nat.sub_add_cancel hpos]⟩

/-- A longer text still has the word. -/
theorem fires_longest_mono {s' : List α} (hpre : s <+: s') (h : fires (longest words) s = true) :
    fires (longest words) s' = true := by
  obtain ⟨n, hn⟩ := fires_iff.mp h
  obtain ⟨⟨w, hw, hws, hlen⟩, -⟩ := longest_eq_some_iff.mp hn
  refine fires_longest hw ?_ (hws.trans hpre)
  rintro rfl
  exact absurd hlen (Nat.succ_ne_zero n).symm

/-- Every hit is a word. -/
theorem mem_words_of_hit {t w : List α} (h : .hit w ∈ scan (longest words) t) : w ∈ words := by
  obtain ⟨p, q, hpq⟩ := List.append_of_mem h
  obtain ⟨-, hmatch, -⟩ := scan_eq_append_hit (longest_bounded words) hpq
  obtain ⟨⟨v, hv, hpre, hlen⟩, -⟩ := longest_eq_some_iff.mp hmatch
  have hvw : v = w := by
    rw [List.prefix_iff_eq_take.mp hpre, hlen, List.take_left]
  exact hvw ▸ hv

/-- **No word stands in a run of literals** of the scan. -/
theorem not_infix_of_lits {t u w : List α} {p q : List (Item α)}
    (h : scan (longest words) t = p ++ u.map .lit ++ q) (hw : w ∈ words) (hne : w ≠ []) :
    ¬w <:+: u := by
  rintro ⟨a, b, rfl⟩
  obtain ⟨c, w', rfl⟩ := List.exists_cons_of_ne_nil hne
  -- at the first character of the word the scan leaves a literal
  have hlit : scan (longest words) t
      = (p ++ a.map .lit) ++ .lit c :: ((w' ++ b).map .lit ++ q) := by
    rw [h]
    simp
  have hquiet := scan_eq_append_lit hlit
  have hpre : c :: w' <+: c :: ((w' ++ b).map Item.lit ++ q).flatMap Item.text := by
    rw [List.flatMap_append, flatMap_text_map_lit, List.append_assoc]
    exact ⟨_, rfl⟩
  rw [fires_longest hw hne hpre] at hquiet
  exact Bool.noConfusion hquiet

end Longest

end Dsv41Overlay
