import Dsv41Overlay.Lib.Scan

/-!
# Searching and replacing

`search` is `re.search`: the leftmost position at which a matcher answers, and the length of
its match. `sub` is `re.sub` with a function: what the scan leaves is kept, and what it hits
is replaced.

`LeftmostLongest` says which pieces a text has for a set of words, without a matcher: going
from left to right, the longest word where there is one and a single element where there is
none. A text has one such list of pieces, and the scan finds it.
-/

namespace Dsv41Overlay

variable {α : Type*} {m : Matcher α}

/-- `re.search`: the position and the length of the leftmost match. -/
def search (m : Matcher α) : List α → Option (ℕ × ℕ)
  | [] => (m []).map (0, ·)
  | c :: s =>
    match m (c :: s) with
    | some n => some (0, n)
    | none => (search m s).map fun p => (p.1 + 1, p.2)

/-- What stands in place of a piece when matches are replaced. -/
def Item.replace (repl : List α → List α) : Item α → List α
  | .lit c => [c]
  | .hit w => repl w

/-- `re.sub` with a function. -/
def sub (m : Matcher α) (repl : List α → List α) (s : List α) : List α :=
  (scan m s).flatMap (Item.replace repl)

/-- **The leftmost match.** -/
theorem search_eq_some_iff {s : List α} {i n : ℕ} :
    search m s = some (i, n) ↔
      i ≤ s.length ∧ m (s.drop i) = some n ∧ ∀ j < i, m (s.drop j) = none := by
  induction s generalizing i with
  | nil =>
    rw [search, Option.map_eq_some_iff]
    constructor
    · rintro ⟨n', hn, h⟩
      obtain ⟨rfl, rfl⟩ := Prod.mk.inj h
      exact ⟨le_refl 0, hn, fun j hj => absurd hj (Nat.not_lt_zero j)⟩
    · rintro ⟨hi, hn, -⟩
      obtain rfl := Nat.le_zero.mp hi
      exact ⟨n, hn, rfl⟩
  | cons c s ih =>
    rw [search]
    cases hhead : m (c :: s) with
    | some n' =>
      dsimp only
      constructor
      · intro h
        obtain ⟨rfl, rfl⟩ := Prod.mk.inj (Option.some.inj h)
        exact ⟨Nat.zero_le _, hhead, fun j hj => absurd hj (Nat.not_lt_zero j)⟩
      · rintro ⟨-, hn, hfirst⟩
        cases i with
        | zero =>
          obtain rfl : n' = n := Option.some.inj (hhead.symm.trans hn)
          rfl
        | succ i => exact nomatch hhead.symm.trans (hfirst 0 (Nat.succ_pos i))
    | none =>
      dsimp only
      rw [Option.map_eq_some_iff]
      constructor
      · rintro ⟨⟨i', n'⟩, hrest, h⟩
        obtain ⟨rfl, rfl⟩ := Prod.mk.inj h
        obtain ⟨hi, hn, hfirst⟩ := ih.mp hrest
        refine ⟨Nat.succ_le_succ hi, hn, fun j hj => ?_⟩
        cases j with
        | zero => exact hhead
        | succ j => exact hfirst j (Nat.lt_of_succ_lt_succ hj)
      · rintro ⟨hi, hn, hfirst⟩
        cases i with
        | zero => exact nomatch hhead.symm.trans hn
        | succ i =>
          refine ⟨(i, n), ih.mpr ⟨Nat.le_of_succ_le_succ hi, hn, fun j hj => ?_⟩, rfl⟩
          exact hfirst (j + 1) (Nat.succ_lt_succ hj)

theorem search_eq_none_iff {s : List α} :
    search m s = none ↔ ∀ i ≤ s.length, m (s.drop i) = none := by
  induction s with
  | nil =>
    rw [search, Option.map_eq_none_iff]
    refine ⟨fun h i hi => ?_, fun h => h 0 (le_refl 0)⟩
    obtain rfl := Nat.le_zero.mp hi
    exact h
  | cons c s ih =>
    rw [search]
    cases hhead : m (c :: s) with
    | some n =>
      constructor
      · exact fun h => nomatch h
      · exact fun h => nomatch hhead.symm.trans (h 0 (Nat.zero_le _))
    | none =>
      dsimp only
      rw [Option.map_eq_none_iff, ih]
      constructor
      · intro h i hi
        cases i with
        | zero => exact hhead
        | succ i => exact h i (Nat.le_of_succ_le_succ hi)
      · exact fun h i hi => h (i + 1) (Nat.succ_le_succ hi)

/-! ### The leftmost longest words -/

section Words

variable {words : List (List α)}

/-- The pieces of a text from left to right: at each position the longest word there, or an
element of its own if no word is there. -/
inductive LeftmostLongest (words : List (List α)) : List α → List (Item α) → Prop
  | nil : LeftmostLongest words [] []
  | lit {c : α} {s : List α} {items : List (Item α)} (hnone : ∀ w ∈ words, ¬ w <+: c :: s)
      (h : LeftmostLongest words s items) : LeftmostLongest words (c :: s) (.lit c :: items)
  | hit {w s : List α} {items : List (Item α)} (hw : w ∈ words)
      (hlongest : ∀ v ∈ words, v <+: w ++ s → v.length ≤ w.length)
      (h : LeftmostLongest words s items) : LeftmostLongest words (w ++ s) (.hit w :: items)

variable [DecidableEq α]

/-- **The scan finds the leftmost longest words**, and nothing else is one. -/
theorem scan_longest_iff (hwords : ∀ w ∈ words, w ≠ []) {s : List α} {items : List (Item α)} :
    scan (longest words) s = items ↔ LeftmostLongest words s items := by
  constructor
  · rintro rfl
    -- strong induction: a hit jumps over its whole word
    induction hn : s.length using Nat.strong_induction_on generalizing s with
    | _ n ih =>
    cases s with
    | nil => exact .nil
    | cons c s =>
      by_cases hf : fires (longest words) (c :: s) = true
      · obtain ⟨k, hk⟩ := fires_iff.mp hf
        obtain ⟨⟨w, hw, ⟨u, hu⟩, hlen⟩, hmax⟩ := longest_eq_some_iff.mp hk
        rw [scan_of_match (List.cons_ne_nil _ _) hk, ← hu, ← hlen, List.take_left, List.drop_left]
        refine .hit hw (fun v hv hpre => ?_) (ih u.length ?_ rfl)
        · rw [hlen]
          exact hmax v hv (hu ▸ hpre)
        · rw [← hn, ← hu, List.length_append]
          omega
      · have hf' := Bool.eq_false_of_not_eq_true hf
        rw [scan_cons_of_not_fires hf']
        refine .lit (fun w hw hpre => ?_) (ih s.length (by rw [← hn]; exact Nat.lt_succ_self _) rfl)
        exact hf (fires_longest hw (hwords w hw) hpre)
  · intro h
    induction h with
    | nil => rfl
    | @lit c s items hnone _ ih =>
      have hf : fires (longest words) (c :: s) = false := by
        rw [fires, longest_eq_none_iff.mpr hnone]
      rw [scan_cons_of_not_fires hf, ih]
    | @hit w s items hw hlongest _ ih =>
      refine (scan_hit_iff (longest_bounded words) (hwords w hw)).mpr ⟨?_, ih⟩
      exact longest_eq_some_iff.mpr ⟨⟨w, hw, List.prefix_append w s, rfl⟩, hlongest⟩

end Words

end Dsv41Overlay
