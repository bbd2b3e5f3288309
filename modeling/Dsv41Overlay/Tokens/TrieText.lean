import Mathlib.Data.Char
import Dsv41Overlay.Lib.RegexSyntax
import Dsv41Overlay.Lib.Search
import Dsv41Overlay.Tokens.TriePattern

/-!
# The text of the trie pattern

`_ots_trie_pattern` and `_ctg_trie_pattern` (one function, twice) give the text of a pattern:
escaped characters, groups around several branches, and an optional group around what follows
the end of a word. `Trie.text` is `build`. The engine reads the text as the pattern of the
trie (`Trie.reads_text`), and the trie pattern takes the longest word.
-/

namespace Dsv41Overlay
namespace Tokens

open Regex (group escape Reads ReadsAlt Same)

/-! ### Printing -/

/-- `"|".join(branches)`. -/
def joinBranches : List (List Char) → List Char
  | [] => []
  | [b] => b
  | b :: bs => b ++ '|' :: joinBranches bs

/-- What `build` makes of the branches of a node. -/
def nodeText (terminal : Bool) (branches : List (List Char)) : List Char :=
  if branches.isEmpty then []
  else
    let body :=
      match branches with
      | [b] => b
      | bs => group (joinBranches bs)
    if terminal then group body ++ ['?'] else body

mutual

/-- `build`: the text of a node. -/
def Trie.text : Trie Char → List Char
  | .node terminal children =>
    -- `sorted(node.items())`
    nodeText terminal ((children.texts.insertionSort fun a b => a.1 ≤ b.1).map Prod.snd)

/-- The branch of each child, with its character. -/
def Forest.texts : Forest Char → List (Char × List Char)
  | .nil => []
  | .cons c t rest => (c, escape c ++ t.text) :: rest.texts

end

/-- `_ots_trie_pattern`, `_ctg_trie_pattern`. -/
def triePatternText (words : List (List Char)) : List Char := (trieOf words).text

/-! ### Reading it back -/

/-- Branches are read as the alternatives that they are. -/
theorem readsAlt_joinBranches {l : List (List Char × Regex Char)} (hne : l ≠ [])
    (h : ∀ e ∈ l, Reads e.1 e.2) :
    ReadsAlt (joinBranches (l.map Prod.fst)) (Regex.alternation (l.map Prod.snd)) := by
  induction l with
  | nil => exact absurd rfl hne
  | cons e l ih =>
    have he := h e List.mem_cons_self
    cases l with
    | nil => exact he.alt
    | cons e' l =>
      exact he.alt_cons (ih (List.cons_ne_nil _ _) fun a ha => h a (List.mem_cons_of_mem _ ha))

/-- **A node** is read as its pattern when its branches are. -/
theorem reads_nodeText (terminal : Bool) {l : List (List Char × Regex Char)}
    (h : ∀ e ∈ l, Reads e.1 e.2) :
    Reads (nodeText terminal (l.map Prod.fst))
      (if (l.map Prod.snd).isEmpty then .empty
        else if terminal then .opt (Regex.alternation (l.map Prod.snd))
        else Regex.alternation (l.map Prod.snd)) := by
  cases l with
  | nil => exact Regex.reads_nil
  | cons e l =>
    -- the body: one branch as it is, several of them in a group
    have hbody : Reads (match (e :: l).map Prod.fst with
        | [b] => b
        | bs => group (joinBranches bs)) (Regex.alternation ((e :: l).map Prod.snd)) := by
      cases l with
      | nil => exact h e List.mem_cons_self
      | cons e' l => exact (readsAlt_joinBranches (List.cons_ne_nil _ _) h).group
    cases terminal with
    | true => exact hbody.alt.opt
    | false => exact hbody

/-- Texts and patterns of the children, side by side. -/
theorem exists_entries {children : Forest Char} {entries : List (Char × List Char × Regex Char)}
    (htexts : children.texts = entries.map fun e => (e.1, e.2.1))
    (hbranches : children.branches = entries.map fun e => (e.1, e.2.2))
    (h : ∀ e ∈ entries, Reads e.2.1 e.2.2) :
    ∃ l : List (List Char × Regex Char), (∀ e ∈ l, Reads e.1 e.2) ∧
      (children.texts.insertionSort fun a b => a.1 ≤ b.1).map Prod.snd = l.map Prod.fst ∧
      (children.branches.insertionSort fun a b => a.1 ≤ b.1).map Prod.snd = l.map Prod.snd := by
  -- they are sorted by the same keys
  refine ⟨(entries.insertionSort fun a b => a.1 ≤ b.1).map Prod.snd, fun e he => ?_, ?_, ?_⟩
  · obtain ⟨e', he', rfl⟩ := List.mem_map.mp he
    exact h e' ((List.mem_insertionSort _).mp he')
  · rw [htexts, ← List.map_insertionSort (fun a b => a.1 ≤ b.1) (fun a b => a.1 ≤ b.1)
      (fun e : Char × List Char × Regex Char => (e.1, e.2.1)) entries (fun a _ b _ => Iff.rfl),
      List.map_map, List.map_map]
    rfl
  · rw [hbranches, ← List.map_insertionSort (fun a b => a.1 ≤ b.1) (fun a b => a.1 ≤ b.1)
      (fun e : Char × List Char × Regex Char => (e.1, e.2.2)) entries (fun a _ b _ => Iff.rfl),
      List.map_map, List.map_map]
    rfl

mutual

/-- **The engine reads the text of a trie as its pattern.** -/
theorem Trie.reads_text : ∀ t : Trie Char, Reads t.text t.build
  | .node terminal children => by
    obtain ⟨entries, htexts, hbranches, h⟩ := Forest.entries_read children
    obtain ⟨l, hl, hfst, hsnd⟩ := exists_entries htexts hbranches h
    rw [Trie.text, Trie.build]
    dsimp only
    rw [hfst, hsnd]
    exact reads_nodeText terminal hl

/-- Each branch of a node is read as its pattern. -/
theorem Forest.entries_read : ∀ children : Forest Char,
    ∃ entries : List (Char × List Char × Regex Char),
      children.texts = entries.map (fun e => (e.1, e.2.1)) ∧
      children.branches = entries.map (fun e => (e.1, e.2.2)) ∧
      ∀ e ∈ entries, Reads e.2.1 e.2.2
  | .nil => ⟨[], rfl, rfl, fun _ he => absurd he List.not_mem_nil⟩
  | .cons c t rest => by
    obtain ⟨entries, htexts, hbranches, h⟩ := Forest.entries_read rest
    refine ⟨(c, escape c ++ t.text, .seq (.char c) t.build) :: entries, ?_, ?_, ?_⟩
    · rw [Forest.texts, htexts, List.map_cons]
    · rw [Forest.branches, hbranches, List.map_cons]
    · intro e he
      obtain rfl | he := List.mem_cons.mp he
      · exact (Trie.reads_text t).cons c
      · exact h e he

end

/-- The text of the trie pattern is a pattern, and it takes the longest word. -/
theorem ofText_triePatternText {words : List (List Char)} (hne : words ≠ []) :
    ∃ r, Regex.ofText (triePatternText words) = some r ∧ r.matcher = longest words := by
  obtain ⟨r, htext, hsame⟩ := (Trie.reads_text (trieOf words)).alt.ofText
  exact ⟨r, htext, hsame.matcher.trans (matcher_triePattern hne)⟩

/-- **The trie regex is a longest-match recogniser.** For every non-empty list of non-empty
words, the text that is built is a pattern, which matches at a position exactly when a word
starts there, and then the longest one. Its search finds the leftmost position at which a word
starts, and what is replaced are the leftmost longest words. -/
theorem trie_regex_longest (words : List (List Char)) (hne : words ≠ [])
    (hwords : ∀ w ∈ words, w ≠ []) :
    ∃ r, Regex.ofText (triePatternText words) = some r ∧
      (∀ s, (r.matcher s).isSome ↔ ∃ w ∈ words, w <+: s) ∧
      (∀ s n, r.matcher s = some n →
        (∃ w ∈ words, w <+: s ∧ w.length = n) ∧ ∀ w ∈ words, w <+: s → w.length ≤ n) ∧
      (∀ s, search r.matcher s = none ↔ ∀ w ∈ words, ¬ w <:+: s) ∧
      (∀ s i n, search r.matcher s = some (i, n) →
        (∃ w ∈ words, w <+: s.drop i ∧ w.length = n) ∧ (∀ w ∈ words, w <+: s.drop i → w.length ≤ n)
          ∧ ∀ j < i, ∀ w ∈ words, ¬ w <+: s.drop j) ∧
      ∀ s, ∃ items, LeftmostLongest words s items ∧
        (∀ items', LeftmostLongest words s items' → items' = items) ∧
        ∀ repl, sub r.matcher repl s = items.flatMap (Item.replace repl) := by
  obtain ⟨r, htext, hr⟩ := ofText_triePatternText hne
  refine ⟨r, htext, fun s => ?_, fun s n hn => ?_, fun s => ?_, fun s i n hfound => ?_, fun s => ?_⟩
  · rw [hr]
    exact isSome_longest_iff
  · rw [hr] at hn
    exact longest_eq_some_iff.mp hn
  · rw [hr, search_eq_none_iff]
    constructor
    · rintro h w hw ⟨a, b, rfl⟩
      have hnone := h a.length (by simp)
      rw [List.append_assoc, List.drop_left] at hnone
      exact longest_eq_none_iff.mp hnone w hw (List.prefix_append w b)
    · intro h i _
      refine longest_eq_none_iff.mpr fun w hw hpre => h w hw ?_
      exact hpre.isInfix.trans (List.drop_suffix i s).isInfix
  · rw [hr] at hfound
    obtain ⟨-, hn, hfirst⟩ := search_eq_some_iff.mp hfound
    obtain ⟨hword, hmax⟩ := longest_eq_some_iff.mp hn
    exact ⟨hword, hmax, fun j hj => longest_eq_none_iff.mp (hfirst j hj)⟩
  · refine ⟨scan (longest words) s, (scan_longest_iff hwords).mp rfl, fun items' h => ?_,
      fun repl => ?_⟩
    · exact ((scan_longest_iff hwords).mpr h).symm
    · rw [hr, sub]

/-- Instance: two words of which one starts with the other. -/
theorem trie_regex_longest_tags :
    ∃ r, Regex.ofText (triePatternText ["<d".toList, "<dsml>".toList]) = some r ∧
      (r.matcher "<dsm".toList).isSome := by
  obtain ⟨r, htext, hsome, -⟩ := trie_regex_longest ["<d".toList, "<dsml>".toList]
    (by decide) (by decide)
  exact ⟨r, htext, (hsome _).mpr ⟨"<d".toList, by decide, by decide⟩⟩

example : triePatternText ["<d".toList, "<dsml>".toList, "a.b".toList] =
    "(?:<d(?:sml>)?|a\\.b)".toList := by decide

end Tokens
end Dsv41Overlay
