import Dsv41Overlay.Lib.Json

/-!
# Files of JSON objects, one to a line

A writer appends `json.dumps(row) + "\n"`; a reader decodes the file, splits it with
`str.splitlines`, and parses every line that is not blank. The two agree as long as the
file holds whole rows (`Whole`) and no row contains a line boundary other than the one
after it: `splitlines` also splits at three characters that JSON leaves unescaped
(`Unbroken`).
-/

namespace Dsv41Overlay.Json

/-! ### Lines -/

/-- The boundaries of `str.splitlines`. -/
def isBoundary (c : Char) : Bool :=
  [10, 11, 12, 13, 28, 29, 30, 0x85, 0x2028, 0x2029].contains c.toNat

/-- `str.isspace` of one character. -/
def isWhitespace (c : Char) : Bool :=
  [9, 10, 11, 12, 13, 28, 29, 30, 31, 32, 0x85, 0xA0, 0x1680, 0x2028, 0x2029, 0x202F, 0x205F,
    0x3000].contains c.toNat || decide (0x2000 ≤ c.toNat ∧ c.toNat ≤ 0x200A)

/-- `str.splitlines`, with the part of the current line read so far. -/
def splitlinesFrom (line : List Char) : List Char → List (List Char)
  | [] => if line = [] then [] else [line]
  | '\r' :: '\n' :: cs => line :: splitlinesFrom [] cs
  | c :: cs =>
    if isBoundary c then line :: splitlinesFrom [] cs else splitlinesFrom (line ++ [c]) cs

def splitlines (cs : List Char) : List (List Char) := splitlinesFrom [] cs

/-- The objects of a file in UTF-8; `none` stands for the `ValueError` of the decoder or
of the parser. Text mode turns every line end into a newline first, which moves no
boundary of `splitlines`. -/
def readJsonl (file : ByteArray) : Option (List Value) :=
  match file.utf8Decode? with
  | none => none
  | some text =>
    ((splitlines text.toList).filter fun line => !line.all isWhitespace).mapM loads

theorem splitlinesFrom_cons {c : Char} (hc : isBoundary c = false) (line cs : List Char) :
    splitlinesFrom line (c :: cs) = splitlinesFrom (line ++ [c]) cs := by
  rw [splitlinesFrom, hc]
  · rfl
  · rintro cs rfl -
    exact Bool.noConfusion hc

/-- A line without a boundary ends at its newline. -/
theorem splitlinesFrom_line {text : List Char} (h : ∀ c ∈ text, isBoundary c = false)
    (line rest : List Char) :
    splitlinesFrom line (text ++ '\n' :: rest) = (line ++ text) :: splitlinesFrom [] rest := by
  induction text generalizing line with
  | nil =>
    rw [List.nil_append, splitlinesFrom, List.append_nil]
    · rfl
    · intro _ hc
      exact absurd hc (by decide)
  | cons c text ih =>
    rw [List.cons_append, splitlinesFrom_cons (h c List.mem_cons_self),
      ih (fun d hd => h d (List.mem_cons_of_mem c hd)), List.append_assoc]
    rfl

/-- The last line may lack its newline. -/
theorem splitlinesFrom_last {text : List Char} (h : ∀ c ∈ text, isBoundary c = false)
    {line : List Char} (hne : line ++ text ≠ []) : splitlinesFrom line text = [line ++ text] := by
  induction text generalizing line with
  | nil =>
    rw [List.append_nil] at hne ⊢
    rw [splitlinesFrom, if_neg hne]
  | cons c text ih =>
    rw [splitlinesFrom_cons (h c List.mem_cons_self),
      ih (fun d hd => h d (List.mem_cons_of_mem c hd)) (by simp), List.append_assoc]
    rfl

/-! ### Rows -/

/-- The lines of a list of rows. -/
def lines (rows : List Flat) : List Char := rows.flatMap fun row => dumps row ++ ['\n']

/-- The file holds exactly these rows, each on a line; the last line may lack its
newline. -/
def Whole (file : ByteArray) (rows : List Flat) : Prop :=
  file = (lines rows).utf8Encode ∨
    ∃ front last, rows = front ++ [last] ∧ file = (lines front ++ dumps last).utf8Encode

/-- A string without the three boundaries that are written unescaped. -/
def Unbroken (s : List Char) : Prop :=
  ∀ c ∈ s, c.toNat ≠ 0x85 ∧ c.toNat ≠ 0x2028 ∧ c.toNat ≠ 0x2029

instance (s : List Char) : Decidable (Unbroken s) :=
  List.decidableBAll _ s

/-- A row that is read back from a file: its floats are literals, and its strings are
unbroken. -/
structure Flat.Plain (row : Flat) : Prop where
  valid : ∀ f ∈ row, f.2.Valid
  key : ∀ f ∈ row, Unbroken f.1
  str : ∀ f ∈ row, ∀ s, f.2 = .str s → Unbroken s

/-! ### A row is one line -/

/-- A character that is no boundary wherever it stands. -/
theorem isBoundary_ascii {c : Char} (hlo : 32 ≤ c.toNat) (hhi : c.toNat < 127) :
    isBoundary c = false := by
  rw [isBoundary, List.contains_eq_mem]
  apply decide_eq_false
  intro hmem
  simp only [List.mem_cons, List.not_mem_nil, or_false] at hmem
  omega

theorem isBoundary_unbroken {c : Char} (hlo : 32 ≤ c.toNat)
    (h : c.toNat ≠ 0x85 ∧ c.toNat ≠ 0x2028 ∧ c.toNat ≠ 0x2029) : isBoundary c = false := by
  rw [isBoundary, List.contains_eq_mem]
  apply decide_eq_false
  intro hmem
  simp only [List.mem_cons, List.not_mem_nil, or_false] at hmem
  omega

theorem hexDigit_bounds {d : ℕ} (h : d < 16) :
    32 ≤ (hexDigit d).toNat ∧ (hexDigit d).toNat < 127 := by
  interval_cases d <;> decide

theorem isBoundary_escapeChar {c d : Char}
    (hc : c.toNat ≠ 0x85 ∧ c.toNat ≠ 0x2028 ∧ c.toNat ≠ 0x2029) (hd : d ∈ escapeChar c) :
    isBoundary d = false := by
  -- a short escape is a backslash and one letter
  have hpair : ∀ e : Char, d ∈ ['\\', e] → isBoundary e = false → isBoundary d = false := by
    intro e hmem he
    rcases List.mem_pair.mp hmem with rfl | rfl
    · rfl
    · exact he
  unfold escapeChar at hd
  split_ifs at hd with h₁ h₂ h₃ h₄ h₅ h₆ h₇ h₈
  · exact hpair _ hd rfl
  · exact hpair _ hd rfl
  · exact hpair _ hd rfl
  · exact hpair _ hd rfl
  · exact hpair _ hd rfl
  · exact hpair _ hd rfl
  · exact hpair _ hd rfl
  · -- the digits of a control character
    have hhigh := hexDigit_bounds (d := c.toNat / 16) (by omega)
    have hlow := hexDigit_bounds (d := c.toNat % 16) (Nat.mod_lt _ (by omega))
    simp only [List.mem_cons, List.not_mem_nil, or_false] at hd
    rcases hd with rfl | rfl | rfl | rfl | rfl | rfl
    · rfl
    · rfl
    · rfl
    · rfl
    · exact isBoundary_ascii hhigh.1 hhigh.2
    · exact isBoundary_ascii hlow.1 hlow.2
  -- the character stands for itself
  · rw [List.mem_singleton] at hd
    subst hd
    exact isBoundary_unbroken (Nat.not_lt.mp h₈) hc

theorem isBoundary_quote {s : List Char} (hs : Unbroken s) {d : Char} (hd : d ∈ quote s) :
    isBoundary d = false := by
  unfold quote at hd
  rcases List.mem_cons.mp hd with rfl | hd
  · rfl
  · rcases List.mem_append.mp hd with hd | hd
    · obtain ⟨c, hc, hd⟩ := List.mem_flatMap.mp hd
      exact isBoundary_escapeChar (hs c hc) hd
    · obtain rfl := List.mem_singleton.mp hd
      rfl

theorem isBoundary_digit {c : Char} (hc : isAsciiDigit c = true) : isBoundary c = false := by
  have hbounds := of_decide_eq_true hc
  have hlo : '0'.toNat ≤ c.toNat := hbounds.1
  have hhi : c.toNat ≤ '9'.toNat := hbounds.2
  exact isBoundary_ascii ((by decide : 32 ≤ '0'.toNat).trans hlo)
    (Nat.lt_of_le_of_lt hhi (by decide))

theorem isBoundary_dumps {v : Scalar} (hv : v.Valid) (hs : ∀ s, v = .str s → Unbroken s)
    {d : Char} (hd : d ∈ v.dumps) : isBoundary d = false := by
  have hword : ∀ w : List Char, w.all (fun c => !isBoundary c) = true → d ∈ w →
      isBoundary d = false := by
    intro w hw hmem
    simpa using List.all_eq_true.mp hw d hmem
  -- the words, the digits and the quoted text have no line break in them
  cases v with
  | null => exact hword _ (by decide) hd
  | bool b =>
    cases b with
    | true => exact hword _ (by decide) hd
    | false => exact hword _ (by decide) hd
  | int z =>
    rw [Scalar.dumps, reprInt] at hd
    split at hd
    · rcases List.mem_cons.mp hd with rfl | hd
      · rfl
      · exact isBoundary_digit (isAsciiDigit_of_mem_pyStr hd)
    · exact isBoundary_digit (isAsciiDigit_of_mem_pyStr hd)
  | float literal =>
    obtain ⟨n, frac, -, hdigits, rfl⟩ := hv
    rcases List.mem_append.mp hd with hd | hd
    · exact isBoundary_digit (isAsciiDigit_of_mem_pyStr hd)
    · rcases List.mem_cons.mp hd with rfl | hd
      · rfl
      · exact isBoundary_digit (hdigits d hd)
  | str s => exact isBoundary_quote (hs s rfl) hd

theorem isBoundary_field {f : List Char × Scalar} (hv : f.2.Valid) (hkey : Unbroken f.1)
    (hs : ∀ s, f.2 = .str s → Unbroken s) {d : Char} (hd : d ∈ dumpsField f) :
    isBoundary d = false := by
  unfold dumpsField at hd
  rcases List.mem_append.mp hd with hd | hd
  · exact isBoundary_quote hkey hd
  · rcases List.mem_cons.mp hd with rfl | hd
    · rfl
    · rcases List.mem_cons.mp hd with rfl | hd
      · rfl
      · exact isBoundary_dumps hv hs hd

/-- **A plain row is written without a line boundary.** -/
theorem Flat.Plain.isBoundary {row : Flat} (h : row.Plain) :
    ∀ d ∈ Json.dumps row, Json.isBoundary d = false := by
  -- in each field, and so in the row
  have hfield : ∀ f ∈ row, ∀ d ∈ dumpsField f, Json.isBoundary d = false := fun f hf d hd =>
    isBoundary_field (h.valid f hf) (h.key f hf) (h.str f hf) hd
  have htail : ∀ fields : Flat, (∀ f ∈ fields, ∀ d ∈ dumpsField f, Json.isBoundary d = false) →
      ∀ d ∈ dumpsTail fields, Json.isBoundary d = false := by
    intro fields hfields d hd
    induction fields with
    | nil =>
      obtain rfl := List.mem_singleton.mp hd
      rfl
    | cons f fields ih =>
      rcases List.mem_cons.mp hd with rfl | hd
      · rfl
      · rcases List.mem_cons.mp hd with rfl | hd
        · rfl
        · rcases List.mem_append.mp hd with hd | hd
          · exact hfields f List.mem_cons_self d hd
          · exact ih (fun g hg => hfields g (List.mem_cons_of_mem f hg)) hd
  intro d hd
  cases row with
  | nil =>
    rcases List.mem_pair.mp hd with rfl | rfl
    · rfl
    · rfl
  | cons f fields =>
    rcases List.mem_cons.mp hd with rfl | hd
    · rfl
    · rcases List.mem_append.mp hd with hd | hd
      · exact hfield f List.mem_cons_self d hd
      · exact htail fields (fun g hg => hfield g (List.mem_cons_of_mem f hg)) d hd

/-! ### Reading whole rows -/

/-- The text of a row starts with a brace, so it is not blank. -/
theorem dumps_eq_cons (row : Flat) : ∃ cs, dumps row = '{' :: cs := by
  cases row with
  | nil => exact ⟨_, rfl⟩
  | cons f fields => exact ⟨_, rfl⟩

theorem not_blank (row : Flat) : (dumps row).all isWhitespace = false := by
  obtain ⟨cs, h⟩ := dumps_eq_cons row
  rw [h]
  rfl

theorem splitlines_lines {rows : List Flat} (h : ∀ row ∈ rows, row.Plain) (rest : List Char) :
    splitlines (lines rows ++ rest) = rows.map dumps ++ splitlines rest := by
  induction rows with
  | nil => rfl
  | cons row rows ih =>
    have ih := ih fun r hr => h r (List.mem_cons_of_mem row hr)
    have hcons : lines (row :: rows) ++ rest = dumps row ++ '\n' :: (lines rows ++ rest) := by
      simp [lines]
    rw [hcons, splitlines, splitlinesFrom_line (h row List.mem_cons_self).isBoundary, ← splitlines,
      ih]
    rfl

theorem mapM_loads {rows : List Flat} (h : ∀ row ∈ rows, row.Plain) :
    ((rows.map dumps).filter fun line => !line.all isWhitespace).mapM loads
      = some (rows.map Flat.value) := by
  induction rows with
  | nil => rfl
  | cons row rows ih =>
    have ih := ih fun r hr => h r (List.mem_cons_of_mem row hr)
    have hrow := loads_dumps (h row List.mem_cons_self).valid
    rw [List.map_cons, List.filter_cons, not_blank]
    rw [Bool.not_false, if_pos rfl, List.mapM_cons, hrow, ih]
    rfl

theorem readJsonl_encode (text : List Char) :
    readJsonl text.utf8Encode
      = ((splitlines text).filter fun line => !line.all isWhitespace).mapM loads := by
  rw [readJsonl, List.utf8Decode?_utf8Encode]

/-- **Whole plain rows are read back.** -/
theorem readJsonl_of_whole {file : ByteArray} {rows : List Flat} (hfile : Whole file rows)
    (h : ∀ row ∈ rows, row.Plain) : readJsonl file = some (rows.map Flat.value) := by
  rcases hfile with rfl | ⟨front, last, rfl, rfl⟩
  · have hsplit := splitlines_lines h []
    rw [List.append_nil] at hsplit
    rw [readJsonl_encode, hsplit, show splitlines [] = [] from rfl, List.append_nil, mapM_loads h]
  -- the last line has no line break behind it
  · have hlast : (last : Flat).Plain := h last (by simp)
    have hfront : ∀ row ∈ front, (row : Flat).Plain := fun row hr =>
      h row (List.mem_append_left _ hr)
    have hne : [] ++ dumps last ≠ [] := by
      obtain ⟨cs, hcs⟩ := dumps_eq_cons last
      rw [hcs]
      exact List.cons_ne_nil _ _
    have htail : splitlines (dumps last) = [dumps last] :=
      splitlinesFrom_last hlast.isBoundary hne
    rw [readJsonl_encode, splitlines_lines hfront, htail]
    have hmap : front.map dumps ++ [dumps last] = (front ++ [last]).map dumps := by
      rw [List.map_append]
      rfl
    rw [hmap, mapM_loads h]

/-! ### Appending -/

theorem lines_append (rows more : List Flat) : lines (rows ++ more) = lines rows ++ lines more := by
  rw [lines, List.flatMap_append]
  rfl

/-- The file consists of whole lines. -/
def Terminated (file : ByteArray) : Prop := ∃ rows, file = (lines rows).utf8Encode

theorem utf8Encode_injective {l m : List Char} (h : l.utf8Encode = m.utf8Encode) : l = m := by
  have hdecode := congrArg ByteArray.utf8Decode? h
  rw [List.utf8Decode?_utf8Encode, List.utf8Decode?_utf8Encode] at hdecode
  exact congrArg Array.toList (Option.some.inj hdecode)

theorem getLast?_dumps (row : Flat) : (dumps row).getLast? = some '}' := by
  -- whatever stands before, the last character closes the object
  have htail : ∀ fields : Flat, (dumpsTail fields).getLast? = some '}' := by
    intro fields
    induction fields with
    | nil => rfl
    | cons f fields ih =>
      rw [dumpsTail, List.getLast?_cons_of_ne_nil (by simp), List.getLast?_cons_of_ne_nil,
        List.getLast?_append, ih]
      · rfl
      · cases fields <;> simp [dumpsTail]
  cases row with
  | nil => rfl
  | cons f fields =>
    rw [dumps, List.getLast?_cons_of_ne_nil, List.getLast?_append, htail]
    · rfl
    · cases fields <;> simp [dumpsTail]

theorem getLast?_lines {rows : List Flat} (h : rows ≠ []) : (lines rows).getLast? = some '\n' := by
  obtain ⟨front, last, rfl⟩ : ∃ front last, rows = front ++ [last] :=
    ⟨rows.dropLast, rows.getLast h, (List.dropLast_append_getLast h).symm⟩
  rw [lines_append, List.getLast?_append]
  simp [lines]

/-- Rows in a file of whole lines each have their newline. -/
theorem Terminated.eq_lines {file : ByteArray} {rows : List Flat} (h : Terminated file)
    (hfile : Whole file rows) : file = (lines rows).utf8Encode := by
  rcases hfile with hfile | ⟨front, last, rfl, hfile⟩
  · exact hfile
  · -- the last character would be a brace
    obtain ⟨rows, hrows⟩ := h
    have htext := utf8Encode_injective (hfile.symm.trans hrows)
    have hlast := congrArg List.getLast? htext
    rw [List.getLast?_append, getLast?_dumps] at hlast
    by_cases hnil : rows = []
    · subst hnil
      exact absurd hlast (by simp [lines])
    · rw [getLast?_lines hnil, Option.some_or] at hlast
      exact absurd hlast (by decide)

/-- **Whole rows after whole lines** are whole rows. -/
theorem Terminated.append {file more : ByteArray} {rows new : List Flat} (h : Terminated file)
    (hfile : Whole file rows) (hmore : Whole more new) : Whole (file ++ more) (rows ++ new) := by
  rw [h.eq_lines hfile]
  rcases hmore with rfl | ⟨front, last, rfl, rfl⟩
  · left
    rw [lines_append, List.utf8Encode_append]
  · right
    refine ⟨rows ++ front, last, by rw [List.append_assoc], ?_⟩
    rw [lines_append, ← List.utf8Encode_append, List.append_assoc]

end Dsv41Overlay.Json
