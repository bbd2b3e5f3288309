import Dsv41Overlay.Lib.Find

/-!
# Counting and replacing a string in another

`count sub s` is Python's `s.count(sub)`: the occurrences found from left to right,
each search going on after the end of the last hit. `replaceOnce old new s` is
`s.replace(old, new, 1)`.

Hits do not overlap, so a count of one does not rule out a second occurrence that
overlaps the first. A string that is no prefix of itself shifted (`Unbordered`) has no
such occurrences, and for it a count of one means that it occurs at exactly one
position (`count_eq_one_iff`).
-/

namespace Dsv41Overlay

variable {α : Type*} [DecidableEq α] {sub s : List α}

/-- The hits from `start` on, at most `fuel` of them. -/
def countFrom (sub s : List α) : ℕ → ℕ → ℕ
  | 0, _ => 0
  | fuel + 1, start =>
    match findFrom sub s start with
    | none => 0
    | some p => 1 + countFrom sub s fuel (p + sub.length)

/-- `s.count(sub)`. -/
def count (sub s : List α) : ℕ :=
  if sub = [] then s.length + 1 else countFrom sub s (s.length + 1) 0

/-- `s.replace(old, new, 1)`. -/
def replaceOnce (old new s : List α) : List α :=
  match findFrom old s 0 with
  | none => s
  | some p => s.take p ++ new ++ s.drop (p + old.length)

/-- No end of the string is also a beginning of it. -/
def Unbordered (sub : List α) : Prop := ∀ k < sub.length, 0 < k → ¬sub.drop k <+: sub

instance (sub : List α) : Decidable (Unbordered sub) :=
  inferInstanceAs (Decidable (∀ k < sub.length, 0 < k → ¬sub.drop k <+: sub))

omit [DecidableEq α] in
/-- Two occurrences less than a length apart overlap: the string is bordered. -/
theorem Unbordered.disjoint (hs : Unbordered sub) {p q : ℕ} (hp : OccursAt sub s p)
    (hq : OccursAt sub s q) (hpq : p < q) : p + sub.length ≤ q := by
  by_contra hlt
  refine hs (q - p) (by omega) (by omega) ?_
  have hdrop : sub.drop (q - p) <+: s.drop q := by
    have hshift := hp.2.drop (q - p)
    rwa [List.drop_drop, Nat.add_sub_cancel' hpq.le] at hshift
  exact List.prefix_of_prefix_length_le hdrop hq.2 (by rw [List.length_drop]; omega)

theorem countFrom_succ_eq_zero_iff (fuel start : ℕ) :
    countFrom sub s (fuel + 1) start = 0 ↔ ∀ p, start ≤ p → ¬OccursAt sub s p := by
  rw [← findFrom_eq_none_iff, countFrom]
  cases findFrom sub s start with
  | none => exact ⟨fun _ => rfl, fun _ => rfl⟩
  | some p =>
    refine ⟨fun h => ?_, fun h => by cases h⟩
    have : 1 + countFrom sub s fuel (p + sub.length) = 0 := h
    omega

/-- Nothing is counted where nothing occurs. -/
theorem count_eq_zero_iff (hs : sub ≠ []) : count sub s = 0 ↔ ¬sub <:+: s := by
  rw [count, if_neg hs, countFrom_succ_eq_zero_iff, infix_iff_occursAt, not_exists]
  exact ⟨fun h p => h p (Nat.zero_le p), fun h p _ => h p⟩

/-- **A count of one** is a single occurrence. -/
theorem count_eq_one_iff (hs : sub ≠ []) (hu : Unbordered sub) :
    count sub s = 1 ↔ ∃! p, OccursAt sub s p := by
  have hpos : 0 < sub.length := List.length_pos_iff.mpr hs
  rw [count, if_neg hs, countFrom]
  cases hfind : findFrom sub s 0 with
  | none =>
    have hnone := findFrom_eq_none_iff.mp hfind
    constructor
    · intro h
      cases h
    · rintro ⟨p, hp, -⟩
      exact absurd hp (hnone p (Nat.zero_le p))
  | some p =>
    have hp := (findFrom_some hfind).2
    have hlen := hp.end_le
    obtain ⟨fuel, hfuel⟩ := Nat.exists_eq_succ_of_ne_zero (show s.length ≠ 0 by omega)
    have hrest : 1 + countFrom sub s s.length (p + sub.length) = 1 ↔
        ∀ q, p + sub.length ≤ q → ¬OccursAt sub s q := by
      rw [← countFrom_succ_eq_zero_iff fuel, hfuel, Nat.succ_eq_add_one, Nat.add_eq_left]
    dsimp only
    rw [hrest]
    constructor
    · intro hafter
      refine ⟨p, hp, fun q hq => ?_⟩
      obtain hlt | heq | hgt := Nat.lt_trichotomy q p
      · exact absurd hq (findFrom_min hfind (Nat.zero_le q) hlt)
      · exact heq
      · exact absurd hq (hafter q (hu.disjoint hp hq hgt))
    · rintro ⟨r, -, hr⟩ q hle hq
      have := hr p hp
      have := hr q hq
      omega

/-- The replacement stands in the result. -/
theorem infix_replaceOnce {old : List α} (h : old <:+: s) (new : List α) :
    new <:+: replaceOnce old new s := by
  rw [replaceOnce]
  cases hfind : findFrom old s 0 with
  | none =>
    obtain ⟨p, hp⟩ := infix_iff_occursAt.mp h
    exact absurd hp (findFrom_eq_none_iff.mp hfind p (Nat.zero_le p))
  | some p => exact ⟨s.take p, s.drop (p + old.length), rfl⟩

theorem mem_replaceOnce {c : α} {old new : List α} (h : c ∈ replaceOnce old new s) :
    c ∈ s ∨ c ∈ new := by
  rw [replaceOnce] at h
  split at h
  · exact .inl h
  · obtain h | h := List.mem_append.mp h
    · exact (List.mem_append.mp h).imp_left List.mem_of_mem_take
    · exact .inl (List.mem_of_mem_drop h)

end Dsv41Overlay
