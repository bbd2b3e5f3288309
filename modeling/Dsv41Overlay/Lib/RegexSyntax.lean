import Dsv41Overlay.Lib.Regex

/-!
# The text of a regular expression

Patterns are written as text and read by the engine. `Regex.ofText` reads the fragment of
the language that has literal characters, escapes, alternatives, groups without a capture and
the greedy `?`; a text that uses anything else is not read.

`Reads` and `ReadsAlt` say that a text is read as a pattern wherever it stands as a sequence
or as a body of alternatives, up to what the pattern matches. The lemmas follow the ways a
text can be put together, so that a printer is verified along its own recursion.
-/

namespace Dsv41Overlay
namespace Regex

/-! ### The reader -/

/-- The characters that repeat what stands before them. -/
def isRepeat (c : Char) : Bool := c = '?' || c = '*' || c = '+' || c = '\x7b'

/-- The characters that do not stand for themselves. -/
def isSpecial (c : Char) : Bool :=
  isRepeat c || c = '.' || c = '[' || c = '(' || c = ')' || c = '^' || c = '$' || c = '|'
    || c = '\\'

/-- What comes next does not repeat what has been read. -/
def noRepeat : List Char → Bool
  | c :: _ => !isRepeat c
  | [] => true

/-- A sequence is at its end. -/
def atEnd : List Char → Bool
  | c :: _ => c = '|' || c = ')'
  | [] => true

/-- An escaped character: what a letter or a digit stands for there is not read. -/
def parseEscape : List Char → Option (Regex Char × List Char)
  | [] => none
  | c :: rest => if c.isAlphanum then none else some (.char c, rest)

mutual

/-- Alternatives. The fuel bounds the nesting of the calls. -/
def parseAlt : ℕ → List Char → Option (Regex Char × List Char)
  | 0, _ => none
  | fuel + 1, s =>
    match parseSeq fuel s with
    | some (r, rest) =>
      if rest.head? = some '|' then (parseAlt fuel rest.tail).map fun p => (.alt r p.1, p.2)
      else some (r, rest)
    | none => none

/-- A sequence of pieces. -/
def parseSeq : ℕ → List Char → Option (Regex Char × List Char)
  | 0, _ => none
  | fuel + 1, s =>
    if atEnd s then some (.empty, s)
    else
      match parsePiece fuel s with
      | some (r, rest) => (parseSeq fuel rest).map fun p => (.seq r p.1, p.2)
      | none => none

/-- An atom, perhaps with a `?`. A second repetition behind it (`??`, `?+`) means something
else. -/
def parsePiece : ℕ → List Char → Option (Regex Char × List Char)
  | 0, _ => none
  | fuel + 1, s =>
    match parseAtom fuel s with
    | some (r, rest) =>
      if rest.head? = some '?' then if noRepeat rest.tail then some (.opt r, rest.tail) else none
      else if noRepeat rest then some (r, rest)
      else none
    | none => none

/-- A character, an escaped one or a group. -/
def parseAtom : ℕ → List Char → Option (Regex Char × List Char)
  | 0, _ => none
  | _ + 1, [] => none
  | fuel + 1, c :: rest =>
    if c = '\\' then parseEscape rest
    else if c = '(' then
      if rest.take 2 = ['?', ':'] then
        match parseAlt fuel (rest.drop 2) with
        | some (r, rest) => if rest.head? = some ')' then some (r, rest.tail) else none
        | none => none
      else none
    else if isSpecial c then none
    else some (.char c, rest)

end

/-- The pattern of a whole text. Four nested calls read a character at least. -/
def ofText (s : List Char) : Option (Regex Char) :=
  match parseAlt (4 * s.length + 4) s with
  | some (r, rest) => if rest.isEmpty then some r else none
  | none => none

/-- What `re.escape` puts a backslash before. -/
def escaped : List Char :=
  ['(', ')', '[', ']', '\x7b', '\x7d', '?', '*', '+', '-', '|', '^', '$', '\\', '.', '&', '~', '#',
    ' ', '\t', '\n', '\r', '\x0b', '\x0c']

/-- `re.escape` of one character. -/
def escape (c : Char) : List Char := if c ∈ escaped then ['\\', c] else [c]

/-! ### What is read -/

/-- Two patterns match alike: the engine finds the same remainders in the same order. -/
def Same (r r' : Regex Char) : Prop := ∀ s, r.results s = r'.results s

theorem Same.refl (r : Regex Char) : Same r r := fun _ => rfl

theorem Same.seq {r₁ r₂ r₁' r₂' : Regex Char} (h₁ : Same r₁ r₁') (h₂ : Same r₂ r₂') :
    Same (.seq r₁ r₂) (.seq r₁' r₂') := by
  intro s
  rw [results, results, h₁ s]
  exact List.flatMap_congr fun t _ => h₂ t

theorem Same.alt {r₁ r₂ r₁' r₂' : Regex Char} (h₁ : Same r₁ r₁') (h₂ : Same r₂ r₂') :
    Same (.alt r₁ r₂) (.alt r₁' r₂') := by
  intro s
  rw [results, results, h₁ s, h₂ s]

theorem Same.opt {r r' : Regex Char} (h : Same r r') : Same (.opt r) (.opt r') := by
  intro s
  rw [results, results, h s]

/-- Nothing behind a pattern. -/
theorem Same.seq_empty {r r' : Regex Char} (h : Same r r') : Same (.seq r .empty) r' := by
  intro s
  rw [results, ← h s]
  exact List.flatMap_singleton' _

theorem Same.matcher {r r' : Regex Char} (h : Same r r') : r.matcher = r'.matcher := by
  funext s
  rw [Regex.matcher, Regex.matcher, h s]

/-- The text is read as the pattern where it is a sequence that ends behind it. -/
structure Reads (text : List Char) (r : Regex Char) : Prop where
  noRepeat : noRepeat text = true
  parse : ∀ rest, atEnd rest = true → ∀ fuel, 4 * (text ++ rest).length + 3 ≤ fuel →
    ∃ r', parseSeq fuel (text ++ rest) = some (r', rest) ∧ Same r' r

/-- The text is read as the pattern where it is all the alternatives of a body. -/
def ReadsAlt (text : List Char) (r : Regex Char) : Prop :=
  ∀ rest, (∀ c ∈ rest.head?, c = ')') → ∀ fuel, 4 * (text ++ rest).length + 4 ≤ fuel →
    ∃ r', parseAlt fuel (text ++ rest) = some (r', rest) ∧ Same r' r

theorem noRepeat_of_atEnd {rest : List Char} (h : atEnd rest = true) : noRepeat rest = true := by
  cases rest with
  | nil => rfl
  | cons c rest =>
    obtain h | h := Bool.or_eq_true _ _ ▸ h
    · rw [of_decide_eq_true h]
      rfl
    · rw [of_decide_eq_true h]
      rfl

theorem noRepeat_append {text rest : List Char} (htext : noRepeat text = true)
    (hrest : noRepeat rest = true) : noRepeat (text ++ rest) = true := by
  cases text with
  | nil => exact hrest
  | cons c text => exact htext

theorem reads_nil : Reads [] .empty where
  noRepeat := rfl
  parse rest hrest fuel hfuel := by
    obtain ⟨fuel, rfl⟩ := Nat.exists_eq_add_of_le' (Nat.le_of_add_left_le hfuel)
    refine ⟨.empty, ?_, .refl _⟩
    rw [List.nil_append, parseSeq, if_pos hrest]

/-- **One piece and what follows it.** -/
theorem parseSeq_cons {fuel : ℕ} {s rest rest' : List Char} {r r' : Regex Char}
    (hs : atEnd s = false) (hpiece : parsePiece fuel s = some (r, rest))
    (hseq : parseSeq fuel rest = some (r', rest')) :
    parseSeq (fuel + 1) s = some (.seq r r', rest') := by
  rw [parseSeq, if_neg (by simp [hs])]
  simp only [hpiece, hseq, Option.map_some]

/-! ### Characters -/

theorem mem_escaped_of_isSpecial {c : Char} (h : isSpecial c = true) : c ∈ escaped := by
  simp only [isSpecial, isRepeat, Bool.or_eq_true, decide_eq_true_eq] at h
  simp only [escaped, List.mem_cons]
  tauto

theorem isAlphanum_of_mem_escaped (c : Char) (hc : c ∈ escaped) : c.isAlphanum = false := by
  have hall : escaped.all (fun c => !c.isAlphanum) = true := by decide
  exact (Bool.not_eq_true' _).mp (List.all_eq_true.mp hall c hc)

theorem parseAtom_escape (fuel : ℕ) (c : Char) (s : List Char) :
    parseAtom (fuel + 1) (escape c ++ s) = some (.char c, s) := by
  rw [escape]
  split
  · rename_i h
    show parseAtom (fuel + 1) ('\\' :: c :: s) = _
    rw [parseAtom, if_pos rfl, parseEscape, isAlphanum_of_mem_escaped c h]
    rfl
  · rename_i h
    have hspecial : isSpecial c = false := by
      by_contra hs
      exact h (mem_escaped_of_isSpecial (Bool.eq_true_of_not_eq_false hs))
    have hback : c ≠ '\\' := by
      rintro rfl
      exact absurd hspecial (by decide)
    have hopen : c ≠ '(' := by
      rintro rfl
      exact absurd hspecial (by decide)
    show parseAtom (fuel + 1) (c :: s) = _
    rw [parseAtom, if_neg hback, if_neg hopen, hspecial]
    rfl

/-- An escaped character neither ends a sequence nor repeats what stands before it. -/
theorem head_escape (c : Char) (s : List Char) :
    atEnd (escape c ++ s) = false ∧ noRepeat (escape c ++ s) = true := by
  rw [escape]
  split
  · exact ⟨rfl, rfl⟩
  · rename_i h
    have hspecial : isSpecial c = false := by
      by_contra hs
      exact h (mem_escaped_of_isSpecial (Bool.eq_true_of_not_eq_false hs))
    simp only [isSpecial, Bool.or_eq_false_iff] at hspecial
    obtain ⟨⟨⟨⟨⟨⟨⟨⟨hrepeat, -⟩, -⟩, -⟩, hclose⟩, -⟩, -⟩, hbar⟩, -⟩ := hspecial
    constructor
    · show (decide (c = '|') || decide (c = ')')) = false
      rw [hbar, hclose]
      rfl
    · show (!isRepeat c) = true
      rw [hrepeat]
      rfl

/-- A piece without a repetition. -/
theorem parsePiece_of_atom {fuel : ℕ} {s rest : List Char} {r : Regex Char}
    (hatom : parseAtom fuel s = some (r, rest)) (hrest : noRepeat rest = true) :
    parsePiece (fuel + 1) s = some (r, rest) := by
  rw [parsePiece]
  simp only [hatom, hrest]
  refine (if_neg fun hhead => ?_).trans (if_pos trivial)
  cases rest with
  | nil => exact nomatch hhead
  | cons c rest =>
    obtain rfl : c = '?' := Option.some.inj hhead
    exact nomatch (show false = true from hrest)

/-- **A literal character in front.** -/
theorem Reads.cons {text : List Char} {r : Regex Char} (h : Reads text r) (c : Char) :
    Reads (escape c ++ text) (.seq (.char c) r) where
  noRepeat := (head_escape c text).2
  parse rest hrest fuel hfuel := by
    rw [List.append_assoc] at hfuel ⊢
    have hlen : 1 ≤ (escape c).length := by
      rw [escape]
      split
      · exact Nat.le_succ 1
      · exact Nat.le_refl 1
    rw [List.length_append] at hfuel
    obtain ⟨fuel, rfl⟩ := Nat.exists_eq_add_of_le' (show 3 ≤ fuel by omega)
    obtain ⟨r', hseq, hsame⟩ := h.parse rest hrest (fuel + 2) (by omega)
    refine ⟨.seq (.char c) r', ?_, (Same.refl _).seq hsame⟩
    refine parseSeq_cons (head_escape c _).1 ?_ hseq
    exact parsePiece_of_atom (parseAtom_escape fuel c _)
      (noRepeat_append h.noRepeat (noRepeat_of_atEnd hrest))

/-! ### Alternatives and groups -/

/-- A body of one alternative. -/
theorem Reads.alt {text : List Char} {r : Regex Char} (h : Reads text r) : ReadsAlt text r := by
  intro rest hrest fuel hfuel
  have hend : atEnd rest = true := by
    cases rest with
    | nil => rfl
    | cons c rest =>
      obtain rfl := hrest c rfl
      rfl
  obtain ⟨fuel, rfl⟩ := Nat.exists_eq_add_of_le' (show 1 ≤ fuel by omega)
  obtain ⟨r', hseq, hsame⟩ := h.parse rest hend fuel (by omega)
  refine ⟨r', ?_, hsame⟩
  rw [parseAlt]
  simp only [hseq]
  rw [if_neg]
  intro hbar
  exact absurd (hrest _ hbar) (by decide)

/-- Another alternative in front. -/
theorem Reads.alt_cons {text text' : List Char} {r r' : Regex Char} (h : Reads text r)
    (h' : ReadsAlt text' r') : ReadsAlt (text ++ '|' :: text') (.alt r r') := by
  intro rest hrest fuel hfuel
  rw [List.append_assoc] at hfuel ⊢
  rw [List.length_append, List.cons_append, List.length_cons] at hfuel
  obtain ⟨fuel, rfl⟩ := Nat.exists_eq_add_of_le' (show 1 ≤ fuel by omega)
  obtain ⟨q, hseq, hsame⟩ := h.parse ('|' :: text' ++ rest) rfl fuel (by
    rw [List.length_append, List.cons_append, List.length_cons]
    omega)
  obtain ⟨q', halt, hsame'⟩ := h' rest hrest fuel (by omega)
  refine ⟨.alt q q', ?_, hsame.alt hsame'⟩
  rw [parseAlt]
  simp only [hseq]
  refine (if_pos rfl).trans ?_
  show (parseAlt fuel (text' ++ rest)).map _ = _
  rw [halt]
  rfl

/-- `(?:...)`. -/
def group (text : List Char) : List Char := ['(', '?', ':'] ++ text ++ [')']

theorem parseAtom_group {text : List Char} {r : Regex Char} (h : ReadsAlt text r)
    (rest : List Char) {fuel : ℕ} (hfuel : 4 * (group text ++ rest).length ≤ fuel) :
    ∃ r', parseAtom (fuel + 1) (group text ++ rest) = some (r', rest) ∧ Same r' r := by
  have hform : group text ++ rest = '(' :: '?' :: ':' :: (text ++ ')' :: rest) := by
    simp [group]
  rw [hform] at hfuel ⊢
  simp only [List.length_cons] at hfuel
  obtain ⟨r', halt, hsame⟩ := h (')' :: rest) (fun c hc => (Option.some.inj hc).symm) fuel
    (by omega)
  refine ⟨r', ?_, hsame⟩
  rw [parseAtom, if_neg (by decide), if_pos rfl]
  refine (if_pos rfl).trans ?_
  show (match parseAlt fuel (text ++ ')' :: rest) with
    | some (r, rest) => if rest.head? = some ')' then some (r, rest.tail) else none
    | none => none) = _
  rw [halt]
  rfl

/-- **A group** at the end of a sequence. -/
theorem ReadsAlt.group {text : List Char} {r : Regex Char} (h : ReadsAlt text r) :
    Reads (group text) r where
  noRepeat := rfl
  parse rest hrest fuel hfuel := by
    have hpos : 1 ≤ (Regex.group text ++ rest).length := Nat.le_add_left _ _
    obtain ⟨fuel, rfl⟩ := Nat.exists_eq_add_of_le' (show 3 ≤ fuel by omega)
    obtain ⟨r', hatom, hsame⟩ := parseAtom_group h rest (show _ ≤ fuel by omega)
    refine ⟨.seq r' .empty, ?_, hsame.seq_empty⟩
    refine parseSeq_cons rfl (parsePiece_of_atom hatom (noRepeat_of_atEnd hrest)) ?_
    rw [parseSeq, if_pos hrest]

/-- **An optional group** at the end of a sequence. -/
theorem ReadsAlt.opt {text : List Char} {r : Regex Char} (h : ReadsAlt text r) :
    Reads (Regex.group text ++ ['?']) (.opt r) where
  noRepeat := rfl
  parse rest hrest fuel hfuel := by
    rw [List.append_assoc] at hfuel ⊢
    obtain ⟨fuel, rfl⟩ := Nat.exists_eq_add_of_le' (show 3 ≤ fuel by omega)
    obtain ⟨r', hatom, hsame⟩ := parseAtom_group h (['?'] ++ rest) (show _ ≤ fuel by omega)
    refine ⟨.seq (.opt r') .empty, ?_, hsame.opt.seq_empty⟩
    have hpiece : parsePiece (fuel + 2) (Regex.group text ++ (['?'] ++ rest)) =
        some (.opt r', rest) := by
      rw [parsePiece]
      simp only [hatom]
      exact (if_pos rfl).trans (if_pos (noRepeat_of_atEnd hrest))
    refine parseSeq_cons rfl hpiece ?_
    rw [parseSeq, if_pos hrest]

/-- A text that is read as a body of alternatives is a pattern. -/
theorem ReadsAlt.ofText {text : List Char} {r : Regex Char} (h : ReadsAlt text r) :
    ∃ r', ofText text = some r' ∧ Same r' r := by
  obtain ⟨r', halt, hsame⟩ := h [] (fun c hc => nomatch hc) (4 * text.length + 4)
    (by rw [List.append_nil])
  rw [List.append_nil] at halt
  refine ⟨r', ?_, hsame⟩
  rw [Regex.ofText, halt]
  rfl

end Regex
end Dsv41Overlay
