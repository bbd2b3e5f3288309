import Mathlib.Data.List.Infix
import Mathlib.Data.List.Range
import Mathlib.Data.Nat.Find

/-!
# Occurrences of a string in another

`OccursAt sub s p`: `sub` stands in `s` at position `p`. `findFrom sub s start` is the
first position from `start` on, as Python's `s.find(sub, start)` computes it, with
`none` for `-1`.

An occurrence survives appending (`OccursAt.append`), and a prefix has exactly the
occurrences that end inside it (`OccursAt.take`); the callers cut a growing text
by these two.
-/

namespace Dsv41Overlay

variable {α : Type*}

/-- `sub` stands in `s` at position `p`. -/
def OccursAt (sub s : List α) (p : ℕ) : Prop := p ≤ s.length ∧ sub <+: s.drop p

instance [DecidableEq α] (sub s : List α) (p : ℕ) : Decidable (OccursAt sub s p) :=
  inferInstanceAs (Decidable (_ ∧ _))

namespace OccursAt

variable {sub s t : List α} {p : ℕ}

/-- An occurrence ends inside the text. -/
theorem end_le (h : OccursAt sub s p) : p + sub.length ≤ s.length := by
  have hlen := h.2.length_le
  rw [List.length_drop] at hlen
  have := h.1
  omega

/-- Appending keeps an occurrence. -/
theorem append (h : OccursAt sub s p) (t : List α) : OccursAt sub (s ++ t) p := by
  refine ⟨?_, ?_⟩
  · rw [List.length_append]
    exact h.1.trans (Nat.le_add_right _ _)
  · rw [List.drop_append_of_le_length h.1]
    exact h.2.trans (List.prefix_append _ _)

/-- A prefix has the occurrences that end inside it. -/
theorem take (h : OccursAt sub s p) {n : ℕ} (hn : p + sub.length ≤ n) :
    OccursAt sub (s.take n) p := by
  have hend := h.end_le
  refine ⟨?_, ?_⟩
  · rw [List.length_take]
    omega
  · rw [List.drop_take]
    exact List.prefix_take_iff.mpr ⟨h.2, by omega⟩

/-- The occurrences in a text are those in the text before an appended piece, if
they end in it. -/
theorem of_append (h : OccursAt sub (s ++ t) p) (hend : p + sub.length ≤ s.length) :
    OccursAt sub s p := by
  have := h.take hend
  rwa [List.take_left] at this

end OccursAt

/-- A string is an infix where it occurs. -/
theorem infix_iff_occursAt {sub s : List α} : sub <:+: s ↔ ∃ p, OccursAt sub s p := by
  constructor
  · rintro ⟨a, b, rfl⟩
    refine ⟨a.length, ?_, ?_⟩
    · rw [List.append_assoc, List.length_append]
      exact Nat.le_add_right _ _
    · rw [List.append_assoc, List.drop_left]
      exact List.prefix_append _ _
  · rintro ⟨p, -, h⟩
    exact h.isInfix.trans (List.drop_suffix p s).isInfix

/-- The first occurrence of `sub` in `s` is at `first`. -/
def FirstAt (sub s : List α) (first : ℕ) : Prop :=
  OccursAt sub s first ∧ ∀ p, OccursAt sub s p → first ≤ p

/-- What occurs has a first occurrence. -/
theorem OccursAt.exists_firstAt {sub s : List α} {p : ℕ} (h : OccursAt sub s p) :
    ∃ first, FirstAt sub s first ∧ first ≤ p := by
  classical
  have hex : ∃ q, OccursAt sub s q := ⟨p, h⟩
  refine ⟨Nat.find hex, ⟨Nat.find_spec hex, ?_⟩, Nat.find_min' hex h⟩
  intro q hq
  exact Nat.find_min' hex hq

/-- A cut keeps a string if it keeps the first occurrence. -/
theorem FirstAt.infix_take_iff {sub s : List α} {first n : ℕ} (h : FirstAt sub s first) :
    sub <:+: s.take n ↔ first + sub.length ≤ n := by
  constructor
  · intro hin
    obtain ⟨p, hocc⟩ := infix_iff_occursAt.mp hin
    have hend := hocc.end_le
    rw [List.length_take] at hend
    have hfirst : first ≤ p := h.2 p (by simpa using hocc.append (s.drop n))
    omega
  · exact fun hle => infix_iff_occursAt.mpr ⟨first, h.1.take hle⟩

section Find

variable [DecidableEq α] {sub s : List α} {start p : ℕ}

/-- `s.find(sub, start)`. -/
def findFrom (sub s : List α) (start : ℕ) : Option ℕ :=
  (List.range' start (s.length + 1 - start)).find? fun p => decide (OccursAt sub s p)

/-- What is found occurs there. -/
theorem findFrom_some (h : findFrom sub s start = some p) : start ≤ p ∧ OccursAt sub s p := by
  unfold findFrom at h
  have hmem := List.mem_range'_1.mp (List.mem_of_find?_eq_some h)
  have hocc := List.find?_some h
  exact ⟨hmem.1, of_decide_eq_true hocc⟩

/-- What is found is the first. -/
theorem findFrom_min (h : findFrom sub s start = some p) {q : ℕ} (hstart : start ≤ q)
    (hq : q < p) : ¬ OccursAt sub s q := by
  have hbefore := (List.find?_range'_eq_some.mp h).2.2 q hstart hq
  exact of_decide_eq_false (Bool.not_eq_true' _ ▸ hbefore)

/-- Nothing is found where nothing occurs from `start` on. -/
theorem findFrom_eq_none_iff :
    findFrom sub s start = none ↔ ∀ p, start ≤ p → ¬ OccursAt sub s p := by
  unfold findFrom
  rw [List.find?_eq_none]
  constructor
  · intro h p hp hocc
    apply h p _ (decide_eq_true hocc)
    rw [List.mem_range'_1]
    have := hocc.1
    omega
  · intro h p hmem hocc
    exact h p (List.mem_range'_1.mp hmem).1 (of_decide_eq_true hocc)

end Find
end Dsv41Overlay
