import Mathlib.Data.List.Infix

/-!
# Text files

`read_text` decodes a file as UTF-8 and turns every line end into a newline;
`write_text` encodes, and on Linux writes newlines as they are. Reading back what was
written normalises the line ends of the text, which moves no string without line ends
in it (`infix_universalNewlines`).
-/

namespace Dsv41Overlay

/-- Line ends on reading: `\r\n` and `\r` become `\n`. -/
def universalNewlines : List Char → List Char
  | [] => []
  | '\r' :: '\n' :: cs => '\n' :: universalNewlines cs
  | '\r' :: cs => '\n' :: universalNewlines cs
  | c :: cs => c :: universalNewlines cs

/-- `path.read_text()`; `none` stands for the `UnicodeDecodeError`. -/
def readText (file : ByteArray) : Option (List Char) :=
  file.utf8Decode?.map fun text => universalNewlines text.toList

/-- `path.write_text(text)`. -/
def writeText (text : List Char) : ByteArray := (String.ofList text).toByteArray

theorem readText_writeText (text : List Char) :
    readText (writeText text) = some (universalNewlines text) := by
  rw [readText, writeText, String.toByteArray_ofList, List.utf8Decode?_utf8Encode,
    Option.map_some, List.toList_toArray]

theorem universalNewlines_cons {c : Char} (hc : c ≠ '\r') (cs : List Char) :
    universalNewlines (c :: cs) = c :: universalNewlines cs := by
  rw [universalNewlines]
  · rintro _ rfl
    exact absurd rfl hc
  · rintro rfl
    exact absurd rfl hc

theorem universalNewlines_cr {cs : List Char} (hcs : ∀ t, cs ≠ '\n' :: t) :
    universalNewlines ('\r' :: cs) = '\n' :: universalNewlines cs := by
  rw [universalNewlines]
  exact fun t ht => hcs t ht

/-- Text without a carriage return is read as it is. -/
theorem universalNewlines_append {a : List Char} (ha : '\r' ∉ a) (b : List Char) :
    universalNewlines (a ++ b) = a ++ universalNewlines b := by
  induction a with
  | nil => rfl
  | cons c a ih =>
    rw [List.cons_append, universalNewlines_cons fun hc => ha (hc ▸ List.mem_cons_self),
      ih (List.not_mem_of_not_mem_cons ha), List.cons_append]

theorem universalNewlines_eq_self {s : List Char} (h : '\r' ∉ s) : universalNewlines s = s := by
  have happend := universalNewlines_append h []
  rwa [List.append_nil, universalNewlines, List.append_nil] at happend

/-- What has been read holds no carriage return. -/
theorem not_mem_universalNewlines (s : List Char) : '\r' ∉ universalNewlines s := by
  have hnewline : '\r' ≠ '\n' := by decide
  induction s using universalNewlines.induct with
  | case1 => exact List.not_mem_nil
  | case2 cs ih => exact List.not_mem_cons_of_ne_of_not_mem hnewline ih
  | case3 cs hcs ih =>
    rw [universalNewlines_cr hcs]
    exact List.not_mem_cons_of_ne_of_not_mem hnewline ih
  | case4 c cs hcrlf hcr ih =>
    rw [universalNewlines_cons hcr]
    exact List.not_mem_cons_of_ne_of_not_mem (Ne.symm hcr) ih

/-- Reading can be split before any character that is no newline. -/
theorem universalNewlines_append_cons {c : Char} (hc : c ≠ '\n') (a b : List Char) :
    universalNewlines (a ++ c :: b) = universalNewlines a ++ universalNewlines (c :: b) := by
  induction a using universalNewlines.induct with
  | case1 => rfl
  | case2 cs ih => exact congrArg ('\n' :: ·) ih
  | case3 cs hcs ih =>
    rw [universalNewlines_cr hcs, List.cons_append, universalNewlines_cr, ih, List.cons_append]
    -- What follows the carriage return does not begin with a newline, also when it is `c`.
    intro t ht
    cases cs with
    | nil => exact hc (List.cons.inj ht).1
    | cons d cs => exact hcs cs (congrArg (· :: cs) (List.cons.inj ht).1)
  | case4 d cs hcrlf hcr ih =>
    have hd : d ≠ '\r' := hcr
    rw [List.cons_append, universalNewlines_cons hd, universalNewlines_cons hd, ih,
      List.cons_append]

/-- **A string without line ends stays where it is.** -/
theorem infix_universalNewlines {sub s : List Char} (hne : sub ≠ []) (hr : '\r' ∉ sub)
    (hn : '\n' ∉ sub) (h : sub <:+: s) : sub <:+: universalNewlines s := by
  obtain ⟨a, b, rfl⟩ := h
  obtain ⟨c, sub, rfl⟩ := List.exists_cons_of_ne_nil hne
  rw [List.append_assoc, List.cons_append,
    universalNewlines_append_cons (fun hc => hn (hc ▸ List.mem_cons_self)), ← List.cons_append,
    universalNewlines_append hr, ← List.append_assoc]
  exact ⟨_, _, rfl⟩

end Dsv41Overlay
