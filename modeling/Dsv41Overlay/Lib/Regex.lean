import Dsv41Overlay.Lib.Scan

/-!
# Backtracking regular expressions

The fragment of a backtracking engine's pattern language that is needed here:
characters, concatenation, ordered alternatives, the greedy optional and the
greedy repetition of a character class. `Regex.results` lists the remainders of
all ways to match at the head of a text, in the order in which the engine tries
them; the engine takes the first. `Regex.matcher` is the matcher of a pattern.
-/

namespace Dsv41Overlay

/-- A pattern. -/
inductive Regex (α : Type*)
  /-- The empty pattern. -/
  | empty
  /-- One character. -/
  | char (c : α)
  /-- Concatenation. -/
  | seq (r₁ r₂ : Regex α)
  /-- Alternatives, tried in order. -/
  | alt (r₁ r₂ : Regex α)
  /-- The greedy `?`. -/
  | opt (r : Regex α)
  /-- The greedy `+` of a character class. -/
  | plus (p : α → Bool)

namespace Regex

variable {α : Type*}

/-- `r₁|r₂|...`. -/
def alternation : List (Regex α) → Regex α
  | [] => .empty
  | [r] => r
  | r :: rs => .alt r (alternation rs)

/-- A literal text. -/
def literal (w : List α) : Regex α := w.foldr (fun c r => .seq (.char c) r) .empty

section Results

variable [DecidableEq α]

/-- What is left of a text after each way to match a pattern at its head, in the
engine's order. -/
def results : Regex α → List α → List (List α)
  | empty, s => [s]
  | char _, [] => []
  | char c, d :: s => if d = c then [s] else []
  | seq r₁ r₂, s => (r₁.results s).flatMap r₂.results
  | alt r₁ r₂, s => r₁.results s ++ r₂.results s
  | opt r, s => r.results s ++ [s]
  -- the longest run first, then one character less each time
  | plus p, s =>
    let run := (s.takeWhile p).length
    (List.range run).map fun i => s.drop (run - i)

/-- The matcher of a pattern: the engine's first result. -/
def matcher (r : Regex α) : Matcher α := fun s =>
  (r.results s).head?.map fun rest => s.length - rest.length

@[simp] theorem results_seq_char_nil (c : α) (r : Regex α) :
    (seq (char c) r).results [] = [] := rfl

@[simp] theorem results_seq_char_self (c : α) (r : Regex α) (s : List α) :
    (seq (char c) r).results (c :: s) = r.results s := by
  simp [results]

theorem results_seq_char_of_ne {c d : α} (h : d ≠ c) (r : Regex α) (s : List α) :
    (seq (char c) r).results (d :: s) = [] := by
  simp [results, h]

/-- Alternatives are tried in order. -/
theorem results_alternation {rs : List (Regex α)} (hne : rs ≠ []) (s : List α) :
    (alternation rs).results s = rs.flatMap fun r => r.results s := by
  induction rs with
  | nil => exact absurd rfl hne
  | cons r rs ih =>
    cases rs with
    | nil => simp [alternation]
    | cons r' rs =>
      rw [alternation, results, ih (List.cons_ne_nil _ _)]
      · rfl
      · exact List.cons_ne_nil _ _

/-- A literal matches itself. -/
theorem results_literal (w s : List α) :
    (literal w).results s = if w <+: s then [s.drop w.length] else [] := by
  induction w generalizing s with
  | nil => simp [literal, results]
  | cons c w ih =>
    cases s with
    | nil => simp [literal]
    | cons d s =>
      change (seq (char c) (literal w)).results (d :: s) = _
      by_cases h : d = c
      · subst h
        rw [results_seq_char_self, ih, List.length_cons, List.drop_succ_cons]
        refine if_congr ?_ rfl rfl
        rw [List.cons_prefix_cons]
        simp
      · rw [results_seq_char_of_ne h, if_neg]
        rw [List.cons_prefix_cons]
        exact fun hc => h hc.1.symm

end Results

end Regex

end Dsv41Overlay
