import Dsv41Overlay.Lib.Decimal

/-!
# Flat JSON objects

`json.dumps` with `ensure_ascii=False` writes an object on one line: control characters,
quotes and backslashes of a string are escaped, every other character stands for itself.
`json.loads` reads any JSON text back.

The objects written here hold scalars only, so that the writer is a plain recursion over
the fields; the reader is the general one. `loads_dumps` says that it reads what was
written.
-/

namespace Dsv41Overlay.Json

/-! ### Values -/

/-- A value that is not a container. A `float` is kept as the literal that stands for it. -/
inductive Scalar
  | null
  | bool (b : Bool)
  | int (z : ℤ)
  | float (literal : List Char)
  | str (s : List Char)
deriving Repr, DecidableEq

/-- What `json.loads` returns. -/
inductive Value
  | scalar (s : Scalar)
  | arr (items : List Value)
  | obj (fields : List (List Char × Value))
deriving Repr

/-- A flat object: scalars under distinct or equal names, in order. -/
abbrev Flat := List (List Char × Scalar)

def Flat.value (fields : Flat) : Value := .obj (fields.map fun f => (f.1, .scalar f.2))

/-! ### Writing -/

/-- A hexadecimal digit, in lower case. -/
def hexDigit (d : ℕ) : Char := if d < 10 then Char.ofNat (48 + d) else Char.ofNat (87 + d)

/-- `ESCAPE_DCT`, and the character itself where it needs no escape. -/
def escapeChar (c : Char) : List Char :=
  if c = '\"' then ['\\', '\"']
  else if c = '\\' then ['\\', '\\']
  else if c = '\n' then ['\\', 'n']
  else if c = '\r' then ['\\', 'r']
  else if c = '\t' then ['\\', 't']
  else if c.toNat = 12 then ['\\', 'f']
  else if c.toNat = 8 then ['\\', 'b']
  else if c.toNat < 32 then ['\\', 'u', '0', '0', hexDigit (c.toNat / 16), hexDigit (c.toNat % 16)]
  else [c]

/-- A string literal. -/
def quote (s : List Char) : List Char := '\"' :: (s.flatMap escapeChar ++ ['\"'])

/-- `int.__repr__`. -/
def reprInt (z : ℤ) : List Char := if z < 0 then '-' :: pyStr z.natAbs else pyStr z.natAbs

def Scalar.dumps : Scalar → List Char
  | null => ['n', 'u', 'l', 'l']
  | bool true => ['t', 'r', 'u', 'e']
  | bool false => ['f', 'a', 'l', 's', 'e']
  | int z => reprInt z
  | float literal => literal
  | str s => quote s

def dumpsField (f : List Char × Scalar) : List Char := quote f.1 ++ ':' :: ' ' :: f.2.dumps

/-- What follows the first field, the closing brace included. -/
def dumpsTail : Flat → List Char
  | [] => ['}']
  | f :: fields => ',' :: ' ' :: (dumpsField f ++ dumpsTail fields)

/-- `json.dumps(…, ensure_ascii=False)` of a flat object. -/
def dumps : Flat → List Char
  | [] => ['{', '}']
  | f :: fields => '{' :: (dumpsField f ++ dumpsTail fields)

/-! ### Reading -/

/-- The whitespace of the grammar. -/
def isSpace (c : Char) : Bool := c = ' ' || c = '\t' || c = '\n' || c = '\r'

def skipSpace (cs : List Char) : List Char := cs.dropWhile isSpace

def hexValue (c : Char) : Option ℕ :=
  if '0' ≤ c ∧ c ≤ '9' then some (c.toNat - 48)
  else if 'a' ≤ c ∧ c ≤ 'f' then some (c.toNat - 87)
  else if 'A' ≤ c ∧ c ≤ 'F' then some (c.toNat - 55)
  else none

def hex4 (a b c d : Char) : Option ℕ := do
  let a ← hexValue a
  let b ← hexValue b
  let c ← hexValue c
  let d ← hexValue d
  some (a * 4096 + b * 256 + c * 16 + d)

/-- `BACKSLASH`. -/
def unescape (c : Char) : Option Char :=
  if c = '\"' ∨ c = '\\' ∨ c = '/' then some c
  else if c = 'n' then some '\n'
  else if c = 'r' then some '\r'
  else if c = 't' then some '\t'
  else if c = 'f' then some (Char.ofNat 12)
  else if c = 'b' then some (Char.ofNat 8)
  else none

/-- `scanstring`, after the opening quote: the string and what follows its closing quote.
Half a surrogate pair is a Python string without a counterpart here, and is refused. -/
def scanString : List Char → Option (List Char × List Char)
  | [] => none
  | c :: cs =>
    if c = '\"' then some ([], cs)
    else if c = '\\' then
      match cs with
      | 'u' :: a :: b :: c :: d :: cs =>
        match hex4 a b c d with
        | none => none
        | some code =>
          if 0xD800 ≤ code ∧ code < 0xDC00 then
            match cs with
            | '\\' :: 'u' :: a :: b :: c :: d :: cs =>
              match hex4 a b c d with
              | none => none
              | some low =>
                if 0xDC00 ≤ low ∧ low < 0xE000 then
                  (scanString cs).map fun p =>
                    (Char.ofNat (0x10000 + (code - 0xD800) * 1024 + (low - 0xDC00)) :: p.1, p.2)
                else none
            | _ => none
          else if 0xDC00 ≤ code ∧ code < 0xE000 then none
          else (scanString cs).map fun p => (Char.ofNat code :: p.1, p.2)
      | e :: cs =>
        match unescape e with
        | none => none
        | some c => (scanString cs).map fun p => (c :: p.1, p.2)
      | [] => none
    else if c.toNat < 32 then none
    else (scanString cs).map fun p => (c :: p.1, p.2)

/-- The value of a run of ASCII digits. -/
def digitsValue (cs : List Char) : ℕ := cs.foldl (fun n c => 10 * n + (c.toNat - 48)) 0

/-- `0|[1-9][0-9]*`. -/
def scanWhole : List Char → Option (List Char × List Char)
  | [] => none
  | c :: cs =>
    if c = '0' then some (['0'], cs)
    else if isAsciiDigit c then some (c :: cs.takeWhile isAsciiDigit, cs.dropWhile isAsciiDigit)
    else none

/-- `([.][0-9]+)?`. -/
def scanFrac (cs : List Char) : List Char × List Char :=
  match cs with
  | '.' :: ds =>
    if ds.takeWhile isAsciiDigit = [] then ([], cs)
    else ('.' :: ds.takeWhile isAsciiDigit, ds.dropWhile isAsciiDigit)
  | _ => ([], cs)

/-- `([eE][-+]?[0-9]+)?`. -/
def scanExp (cs : List Char) : List Char × List Char :=
  match cs with
  | e :: ds =>
    if e = 'e' ∨ e = 'E' then
      let sign := ds.take 1 |>.filter fun c => c = '-' || c = '+'
      let ds := ds.drop sign.length
      if ds.takeWhile isAsciiDigit = [] then ([], cs)
      else (e :: (sign ++ ds.takeWhile isAsciiDigit), ds.dropWhile isAsciiDigit)
    else ([], cs)
  | [] => ([], cs)

/-- `_match_number`: an integer, or the literal of a float. -/
def scanUnsigned (negative : Bool) (cs : List Char) : Option (Scalar × List Char) :=
  match scanWhole cs with
  | none => none
  | some (whole, cs) =>
    let frac := scanFrac cs
    let exp := scanExp frac.2
    if frac.1 = [] ∧ exp.1 = [] then
      some (.int (if negative then -(digitsValue whole : ℤ) else digitsValue whole), exp.2)
    else
      let literal := whole ++ frac.1 ++ exp.1
      some (.float (if negative then '-' :: literal else literal), exp.2)

def scanNumber : List Char → Option (Scalar × List Char)
  | '-' :: cs => scanUnsigned true cs
  | cs => scanUnsigned false cs

/-- The words of the grammar, and the three float words of the library. -/
def words : List (List Char × Scalar) :=
  [(['n', 'u', 'l', 'l'], .null), (['t', 'r', 'u', 'e'], .bool true),
    (['f', 'a', 'l', 's', 'e'], .bool false), (['N', 'a', 'N'], .float ['N', 'a', 'N']),
    (['I', 'n', 'f', 'i', 'n', 'i', 't', 'y'], .float ['I', 'n', 'f', 'i', 'n', 'i', 't', 'y']),
    (['-', 'I', 'n', 'f', 'i', 'n', 'i', 't', 'y'],
      .float ['-', 'I', 'n', 'f', 'i', 'n', 'i', 't', 'y'])]

/-- A word or a number. -/
def scanPlain (cs : List Char) : Option (Scalar × List Char) :=
  match words.findSome? fun w => (cs.dropPrefix? w.1).map fun rest => (w.2, rest) with
  | some p => some p
  | none => scanNumber cs

/-- The text after the character `c`, whitespace before it skipped. -/
def expect (c : Char) (cs : List Char) : Option (List Char) :=
  match skipSpace cs with
  | [] => none
  | d :: cs => if d = c then some cs else none

mutual

/-- `scan_once`. The fuel bounds the depth and the number of members. -/
def scanValue : ℕ → List Char → Option (Value × List Char)
  | 0, _ => none
  | _ + 1, [] => none
  | fuel + 1, c :: cs =>
    if c = '\"' then (scanString cs).map fun p => (.scalar (.str p.1), p.2)
    else if c = '{' then
      match expect '}' cs with
      | some rest => some (.obj [], rest)
      | none => (scanFields fuel (skipSpace cs)).map fun p => (.obj p.1, p.2)
    else if c = '[' then
      match expect ']' cs with
      | some rest => some (.arr [], rest)
      | none => (scanItems fuel (skipSpace cs)).map fun p => (.arr p.1, p.2)
    else (scanPlain (c :: cs)).map fun p => (.scalar p.1, p.2)

/-- The fields of an object, the closing brace included. -/
def scanFields : ℕ → List Char → Option (List (List Char × Value) × List Char)
  | 0, _ => none
  | _ + 1, [] => none
  | fuel + 1, c :: cs =>
    if c = '\"' then do
      let key ← scanString cs
      let cs ← expect ':' key.2
      let value ← scanValue fuel (skipSpace cs)
      match expect '}' value.2 with
      | some rest => some ([(key.1, value.1)], rest)
      | none => do
        let cs ← expect ',' value.2
        let fields ← scanFields fuel (skipSpace cs)
        some ((key.1, value.1) :: fields.1, fields.2)
    else none

/-- The items of an array, the closing bracket included. -/
def scanItems : ℕ → List Char → Option (List Value × List Char)
  | 0, _ => none
  | fuel + 1, cs => do
    let value ← scanValue fuel cs
    match expect ']' value.2 with
    | some rest => some ([value.1], rest)
    | none => do
      let cs ← expect ',' value.2
      let items ← scanItems fuel (skipSpace cs)
      some (value.1 :: items.1, items.2)

end

/-- `json.loads`; `none` stands for the `ValueError`. -/
def loads (cs : List Char) : Option Value :=
  match scanValue (cs.length + 1) (skipSpace cs) with
  | none => none
  | some (value, rest) => if skipSpace rest = [] then some value else none

/-! ### Strings round-trip -/

theorem hexValue_hexDigit {d : ℕ} (h : d < 16) : hexValue (hexDigit d) = some d := by
  interval_cases d <;> rfl

theorem scanString_unescape {e c : Char} (hu : e ≠ 'u') (h : unescape e = some c)
    (rest : List Char) :
    scanString ('\\' :: e :: rest) = (scanString rest).map fun p => (c :: p.1, p.2) := by
  rw [scanString, if_neg (by decide), if_pos rfl]
  · rw [h]
  · intro _ _ _ _ _ he
    exact absurd he hu

/-- A control character is written with four digits, the first two of them `0`. -/
theorem scanString_control {c : Char} (h : c.toNat < 32) (rest : List Char) :
    scanString ('\\' :: 'u' :: '0' :: '0' :: hexDigit (c.toNat / 16) :: hexDigit (c.toNat % 16) ::
      rest) = (scanString rest).map fun p => (c :: p.1, p.2) := by
  -- both digits are read back
  have hhigh : hexValue (hexDigit (c.toNat / 16)) = some (c.toNat / 16) :=
    hexValue_hexDigit (by omega)
  have hlow : hexValue (hexDigit (c.toNat % 16)) = some (c.toNat % 16) :=
    hexValue_hexDigit (Nat.mod_lt _ (by omega))
  have hzero : hexValue '0' = some 0 := rfl
  have hcode : hex4 '0' '0' (hexDigit (c.toNat / 16)) (hexDigit (c.toNat % 16))
      = some c.toNat := by
    unfold hex4
    rw [hzero, hhigh, hlow]
    show some (0 * 4096 + 0 * 256 + c.toNat / 16 * 16 + c.toNat % 16) = some c.toNat
    congr 1
    omega
  rw [scanString, if_neg (by decide), if_pos rfl, hcode]
  dsimp only
  rw [if_neg (by omega), if_neg (by omega), Char.ofNat_toNat]

theorem char_eq_of_toNat {c : Char} {n : ℕ} (h : c.toNat = n) : c = Char.ofNat n := by
  rw [← h, Char.ofNat_toNat]

/-- **Escapes are read back.** -/
theorem scanString_escapeChar (c : Char) (rest : List Char) :
    scanString (escapeChar c ++ rest) = (scanString rest).map fun p => (c :: p.1, p.2) := by
  unfold escapeChar
  -- the escapes one after the other, in the order of the encoder
  by_cases hquote : c = '\"'
  · subst hquote
    exact scanString_unescape (by decide) rfl rest
  rw [if_neg hquote]
  by_cases hslash : c = '\\'
  · subst hslash
    exact scanString_unescape (by decide) rfl rest
  rw [if_neg hslash]
  by_cases hn : c = '\n'
  · subst hn
    exact scanString_unescape (by decide) rfl rest
  rw [if_neg hn]
  by_cases hr : c = '\r'
  · subst hr
    exact scanString_unescape (by decide) rfl rest
  rw [if_neg hr]
  by_cases ht : c = '\t'
  · subst ht
    exact scanString_unescape (by decide) rfl rest
  rw [if_neg ht]
  by_cases hf : c.toNat = 12
  · rw [if_pos hf, char_eq_of_toNat hf]
    exact scanString_unescape (by decide) rfl rest
  rw [if_neg hf]
  by_cases hb : c.toNat = 8
  · rw [if_pos hb, char_eq_of_toNat hb]
    exact scanString_unescape (by decide) rfl rest
  rw [if_neg hb]
  by_cases hcontrol : c.toNat < 32
  · rw [if_pos hcontrol]
    exact scanString_control hcontrol rest
  · -- every other character stands for itself
    rw [if_neg hcontrol, List.singleton_append, scanString.eq_def]
    dsimp only
    rw [if_neg hquote, if_neg hslash, if_neg hcontrol]

theorem scanString_quote (s rest : List Char) :
    scanString (s.flatMap escapeChar ++ '\"' :: rest) = some (s, rest) := by
  induction s with
  | nil =>
    rw [List.flatMap_nil, List.nil_append, scanString.eq_def]
    rfl
  | cons c s ih =>
    rw [List.flatMap_cons, List.append_assoc, scanString_escapeChar, ih]
    rfl

/-! ### Numbers round-trip -/

/-- What follows a number does not extend it. -/
def Stops (rest : List Char) : Prop := ∃ tail, rest = ',' :: tail ∨ rest = '}' :: tail

theorem Stops.takeWhile {ds rest : List Char} (h : Stops rest)
    (hds : ∀ c ∈ ds, isAsciiDigit c = true) :
    (ds ++ rest).takeWhile isAsciiDigit = ds ∧ (ds ++ rest).dropWhile isAsciiDigit = rest := by
  obtain ⟨tail, hrest⟩ := h
  rw [List.takeWhile_append_of_pos hds, List.dropWhile_append_of_pos hds]
  rcases hrest with rfl | rfl
  · exact ⟨List.append_nil ds, rfl⟩
  · exact ⟨List.append_nil ds, rfl⟩

theorem Stops.scanFrac {rest : List Char} (h : Stops rest) : scanFrac rest = ([], rest) := by
  obtain ⟨tail, rfl | rfl⟩ := h
  · rfl
  · rfl

theorem Stops.scanExp {rest : List Char} (h : Stops rest) : scanExp rest = ([], rest) := by
  obtain ⟨tail, rfl | rfl⟩ := h
  · rfl
  · rfl

theorem digitsValue_digits (ds : List ℕ) (h : ∀ d ∈ ds, d < 10) :
    digitsValue (ds.reverse.map digitChar) = Nat.ofDigits 10 ds := by
  induction ds with
  | nil => rfl
  | cons d ds ih =>
    have hd : (digitChar d).toNat - 48 = d := by
      have := h d List.mem_cons_self
      interval_cases d <;> rfl
    have ih := ih fun e he => h e (List.mem_cons_of_mem d he)
    unfold digitsValue at ih ⊢
    rw [List.reverse_cons, List.map_append, List.foldl_append, ih, Nat.ofDigits_cons]
    show 10 * Nat.ofDigits 10 ds + ((digitChar d).toNat - 48) = d + 10 * Nat.ofDigits 10 ds
    rw [hd, Nat.add_comm]

theorem digitsValue_pyStr (n : ℕ) : digitsValue (pyStr n) = n := by
  unfold pyStr
  split
  · next h => rw [h]; rfl
  · rw [digitsValue_digits _ fun d hd => Nat.digits_lt_base (by norm_num) hd, Nat.ofDigits_digits]

/-- A numeral is `0`, or starts with another digit. -/
theorem pyStr_cases (n : ℕ) :
    pyStr n = ['0'] ∨ ∃ c cs, pyStr n = c :: cs ∧ c ≠ '0' ∧ isAsciiDigit c = true := by
  -- zero is the one number that starts with 0
  by_cases hn : n = 0
  · subst hn
    exact .inl rfl
  · right
    cases hs : pyStr n with
    | nil => exact absurd hs (pyStr_ne_nil n)
    | cons c cs =>
      have hc : isAsciiDigit c = true := isAsciiDigit_of_mem_pyStr (hs ▸ List.mem_cons_self)
      refine ⟨c, cs, rfl, ?_, hc⟩
      rintro rfl
      -- the leading digit of a positive number is not `0`
      have hne := (Nat.digits_ne_nil_iff_ne_zero (b := 10)).mpr hn
      have hlast := Nat.getLast_digit_ne_zero 10 hn
      rw [pyStr, if_neg hn, ← List.dropLast_append_getLast hne, List.reverse_append] at hs
      have hhead : digitChar ((Nat.digits 10 n).getLast hne) = '0' := by
        injection hs
      have hlt : (Nat.digits 10 n).getLast hne < 10 :=
        Nat.digits_lt_base (by norm_num) (List.getLast_mem hne)
      generalize (Nat.digits 10 n).getLast hne = d at hhead hlast hlt
      interval_cases d <;> first | exact hlast rfl | exact absurd hhead (by decide)

theorem scanWhole_pyStr (n : ℕ) {rest : List Char} (h : rest.takeWhile isAsciiDigit = []) :
    scanWhole (pyStr n ++ rest) = some (pyStr n, rest) := by
  have hdrop : rest.dropWhile isAsciiDigit = rest := by
    have hsplit := List.takeWhile_append_dropWhile (p := isAsciiDigit) (l := rest)
    rwa [h, List.nil_append] at hsplit
  rcases pyStr_cases n with hn | ⟨c, cs, hn, hzero, hdigit⟩
  · rw [hn]
    rfl
  · have hcs : ∀ d ∈ cs, isAsciiDigit d = true := fun d hd =>
      isAsciiDigit_of_mem_pyStr (hn ▸ List.mem_cons_of_mem c hd)
    rw [hn, List.cons_append, scanWhole, if_neg hzero, if_pos hdigit,
      List.takeWhile_append_of_pos hcs, List.dropWhile_append_of_pos hcs, h, hdrop,
      List.append_nil]

theorem scanUnsigned_pyStr (negative : Bool) (n : ℕ) {rest : List Char} (h : Stops rest) :
    scanUnsigned negative (pyStr n ++ rest)
      = some (.int (if negative then -(n : ℤ) else n), rest) := by
  have hstop : rest.takeWhile isAsciiDigit = [] := by
    obtain ⟨tail, rfl | rfl⟩ := h
    · rfl
    · rfl
  unfold scanUnsigned
  rw [scanWhole_pyStr n hstop]
  dsimp only
  rw [h.scanFrac, h.scanExp, if_pos ⟨rfl, rfl⟩, digitsValue_pyStr]

/-- A float literal: digits on both sides of the point. -/
def FloatLit (literal : List Char) : Prop :=
  ∃ n frac, frac ≠ [] ∧ (∀ c ∈ frac, isAsciiDigit c = true) ∧ literal = pyStr n ++ '.' :: frac

theorem scanUnsigned_floatLit {literal rest : List Char} (hlit : FloatLit literal)
    (h : Stops rest) : scanUnsigned false (literal ++ rest) = some (.float literal, rest) := by
  obtain ⟨n, frac, hne, hdigits, rfl⟩ := hlit
  obtain ⟨htake, hdrop⟩ := h.takeWhile hdigits
  -- the fraction takes all its digits, since the text stops there
  have hfrac : scanFrac ('.' :: (frac ++ rest)) = ('.' :: frac, rest) := by
    show (if (frac ++ rest).takeWhile isAsciiDigit = [] then ([], '.' :: (frac ++ rest))
      else ('.' :: (frac ++ rest).takeWhile isAsciiDigit,
        (frac ++ rest).dropWhile isAsciiDigit)) = _
    rw [htake, hdrop, if_neg hne]
  unfold scanUnsigned
  rw [List.append_assoc, scanWhole_pyStr n (by rfl)]
  dsimp only
  rw [List.cons_append, hfrac]
  dsimp only
  rw [h.scanExp, if_neg (by simp), List.append_nil]
  rfl

/-! ### Scalars round-trip -/

/-- What is written for the scalar is a literal of the grammar. -/
def Scalar.Valid : Scalar → Prop
  | .float literal => FloatLit literal
  | _ => True

/-- No word starts with a digit. -/
theorem scanPlain_digit {c : Char} (hc : isAsciiDigit c = true) (cs : List Char) :
    scanPlain (c :: cs) = scanNumber (c :: cs) := by
  have hne : ∀ d : Char, isAsciiDigit d = false → c ≠ d := by
    rintro d hd rfl
    rw [hc] at hd
    exact Bool.noConfusion hd
  have hwords : (words.findSome? fun w =>
      ((c :: cs).dropPrefix? w.1).map fun rest => (w.2, rest)) = none := by
    simp [words, List.dropPrefix?, hne 'n' rfl, hne 't' rfl, hne 'f' rfl, hne 'N' rfl,
      hne 'I' rfl, hne '-' rfl]
  rw [scanPlain, hwords]

/-- Nor with a sign and a digit. -/
theorem scanPlain_minus {c : Char} (hc : isAsciiDigit c = true) (cs : List Char) :
    scanPlain ('-' :: c :: cs) = scanUnsigned true (c :: cs) := by
  have hne : c ≠ 'I' := by
    rintro rfl
    exact Bool.noConfusion hc
  have hwords : (words.findSome? fun w =>
      (('-' :: c :: cs).dropPrefix? w.1).map fun rest => (w.2, rest)) = none := by
    simp [words, List.dropPrefix?, hne]
  rw [scanPlain, hwords]
  rfl

theorem scanNumber_digit {c : Char} (hc : isAsciiDigit c = true) (cs : List Char) :
    scanNumber (c :: cs) = scanUnsigned false (c :: cs) := by
  unfold scanNumber
  split
  · next heq =>
    injection heq with hsign
    rw [hsign] at hc
    exact Bool.noConfusion hc
  · rfl

theorem exists_pyStr_eq_cons (n : ℕ) :
    ∃ c cs, pyStr n = c :: cs ∧ isAsciiDigit c = true := by
  cases h : pyStr n with
  | nil => exact absurd h (pyStr_ne_nil n)
  | cons c cs => exact ⟨c, cs, rfl, isAsciiDigit_of_mem_pyStr (h ▸ List.mem_cons_self)⟩

theorem scanPlain_reprInt (z : ℤ) {rest : List Char} (h : Stops rest) :
    scanPlain (reprInt z ++ rest) = some (.int z, rest) := by
  obtain ⟨c, cs, hn, hc⟩ := exists_pyStr_eq_cons z.natAbs
  unfold reprInt
  split
  -- a negative number starts with its sign
  · next hz =>
    have hscan := scanUnsigned_pyStr true z.natAbs h
    rw [hn] at hscan ⊢
    rw [List.cons_append, List.cons_append, scanPlain_minus hc]
    rw [List.cons_append, if_pos rfl] at hscan
    rw [hscan, show -(z.natAbs : ℤ) = z by omega]
  · next hz =>
    have hscan := scanUnsigned_pyStr false z.natAbs h
    rw [hn] at hscan ⊢
    rw [List.cons_append, scanPlain_digit hc, scanNumber_digit hc]
    rw [List.cons_append, if_neg Bool.false_ne_true] at hscan
    rw [hscan, show (z.natAbs : ℤ) = z by omega]

theorem scanPlain_floatLit {literal rest : List Char} (hlit : FloatLit literal)
    (h : Stops rest) : scanPlain (literal ++ rest) = some (.float literal, rest) := by
  have hscan := scanUnsigned_floatLit hlit h
  obtain ⟨n, frac, -, -, rfl⟩ := hlit
  obtain ⟨c, cs, hn, hc⟩ := exists_pyStr_eq_cons n
  rw [hn] at hscan ⊢
  rwa [List.cons_append, List.cons_append, scanPlain_digit hc, scanNumber_digit hc]

/-- The first character of a plain scalar opens no container and no string. -/
theorem scanValue_plain {c : Char} (hquote : c ≠ '\"') (hbrace : c ≠ '{') (hbracket : c ≠ '[')
    (fuel : ℕ) (cs : List Char) :
    scanValue (fuel + 1) (c :: cs) = (scanPlain (c :: cs)).map fun p => (.scalar p.1, p.2) := by
  rw [scanValue, if_neg hquote, if_neg hbrace, if_neg hbracket]

theorem scanValue_digit {c : Char} (hc : isAsciiDigit c = true) (fuel : ℕ) (cs : List Char) :
    scanValue (fuel + 1) (c :: cs) = (scanPlain (c :: cs)).map fun p => (.scalar p.1, p.2) := by
  have hne : ∀ d : Char, isAsciiDigit d = false → c ≠ d := by
    rintro d hd rfl
    rw [hc] at hd
    exact Bool.noConfusion hd
  exact scanValue_plain (hne _ rfl) (hne _ rfl) (hne _ rfl) fuel cs

/-- **Scalars are read back.** -/
theorem scanValue_dumps {v : Scalar} (hv : v.Valid) {rest : List Char} (h : Stops rest)
    (fuel : ℕ) : scanValue (fuel + 1) (v.dumps ++ rest) = some (.scalar v, rest) := by
  cases v with
  | null => simp [Scalar.dumps, scanValue_plain, scanPlain, words, List.dropPrefix?]
  | bool b =>
    cases b with
    | true => simp [Scalar.dumps, scanValue_plain, scanPlain, words, List.dropPrefix?]
    | false => simp [Scalar.dumps, scanValue_plain, scanPlain, words, List.dropPrefix?]
  | int z =>
    have hscan := scanPlain_reprInt z h
    obtain ⟨c, cs, hn, hc⟩ := exists_pyStr_eq_cons z.natAbs
    -- an integer is scanned by its first character
    rw [Scalar.dumps]
    rw [reprInt] at hscan ⊢
    split
    · next hz =>
      rw [if_pos hz] at hscan
      rw [List.cons_append] at hscan ⊢
      rw [scanValue_plain (by decide) (by decide) (by decide), hscan]
      rfl
    · next hz =>
      rw [if_neg hz, hn, List.cons_append] at hscan
      rw [hn, List.cons_append, scanValue_digit hc, hscan]
      rfl
  | float literal =>
    -- so is a float
    have hscan := scanPlain_floatLit hv h
    obtain ⟨n, frac, -, -, rfl⟩ := hv
    obtain ⟨c, cs, hn, hc⟩ := exists_pyStr_eq_cons n
    rw [Scalar.dumps]
    rw [hn, List.cons_append, List.cons_append] at hscan
    rw [hn, List.cons_append, List.cons_append, scanValue_digit hc, hscan, ← List.cons_append,
      ← hn]
    rfl
  | str s =>
    -- a string is scanned up to its closing quote
    rw [Scalar.dumps, quote, List.cons_append, List.append_assoc, List.singleton_append,
      scanValue, if_pos rfl, scanString_quote]
    rfl

/-- No scalar starts with whitespace. -/
theorem skipSpace_dumps {v : Scalar} (hv : v.Valid) (rest : List Char) :
    skipSpace (v.dumps ++ rest) = v.dumps ++ rest := by
  -- a number does not start with a space
  have hdigit : ∀ c : Char, isAsciiDigit c = true → isSpace c = false := by
    intro c hc
    have hne : ∀ d : Char, isAsciiDigit d = false → decide (c = d) = false := by
      intro d hd
      refine decide_eq_false ?_
      rintro rfl
      rw [hc] at hd
      exact Bool.noConfusion hd
    rw [isSpace, hne ' ' rfl, hne '\t' rfl, hne '\n' rfl, hne '\r' rfl]
    rfl
  have hcons : ∀ (c : Char) (cs : List Char), isSpace c = false →
      skipSpace (c :: cs) = c :: cs := by
    intro c cs hc
    rw [skipSpace, List.dropWhile_cons, hc]
    rfl
  -- nor does any other value
  cases v with
  | null => rfl
  | bool b =>
    cases b with
    | true => rfl
    | false => rfl
  | int z =>
    obtain ⟨c, cs, hn, hc⟩ := exists_pyStr_eq_cons z.natAbs
    rw [Scalar.dumps, reprInt]
    split
    · rfl
    · rw [hn]
      exact hcons c _ (hdigit c hc)
  | float literal =>
    obtain ⟨n, frac, -, -, rfl⟩ := hv
    obtain ⟨c, cs, hn, hc⟩ := exists_pyStr_eq_cons n
    rw [Scalar.dumps, hn]
    exact hcons c _ (hdigit c hc)
  | str s => rfl

/-! ### Objects round-trip -/

theorem stops_dumpsTail (fields : Flat) (rest : List Char) : Stops (dumpsTail fields ++ rest) := by
  cases fields with
  | nil => exact ⟨rest, .inr rfl⟩
  | cons f fields => exact ⟨_, .inl rfl⟩

/-- A field is its quoted key, a colon, a blank and its value. -/
theorem dumpsField_append (f : List Char × Scalar) (tail : List Char) :
    dumpsField f ++ tail
      = '\"' :: (f.1.flatMap escapeChar ++ '\"' :: ':' :: ' ' :: (f.2.dumps ++ tail)) := by
  simp [dumpsField, quote]

/-- The reader after the key and the value of a field. -/
theorem scanFields_field {f : List Char × Scalar} (hf : f.2.Valid) {tail : List Char}
    (htail : Stops tail) (fuel : ℕ) :
    scanFields (fuel + 2) (dumpsField f ++ tail) =
      match expect '}' tail with
      | some rest => some ([(f.1, .scalar f.2)], rest)
      | none => (expect ',' tail).bind fun cs =>
        (scanFields (fuel + 1) (skipSpace cs)).bind fun fields =>
          some ((f.1, .scalar f.2) :: fields.1, fields.2) := by
  have hcolon : ∀ cs : List Char, expect ':' (':' :: cs) = some cs := fun _ => rfl
  have hspace : skipSpace (' ' :: (f.2.dumps ++ tail)) = f.2.dumps ++ tail :=
    skipSpace_dumps hf tail
  rw [dumpsField_append, scanFields, if_pos rfl, scanString_quote]
  simp only [Option.bind_eq_bind, Option.bind_some, hcolon]
  rw [hspace, scanValue_dumps hf htail]
  rfl

theorem scanFields_dumps {fields : Flat} (hvalid : ∀ f ∈ fields, f.2.Valid)
    {f : List Char × Scalar} (hf : f.2.Valid) (rest : List Char) {fuel : ℕ}
    (hfuel : fields.length + 2 ≤ fuel) :
    scanFields fuel (dumpsField f ++ (dumpsTail fields ++ rest))
      = some ((f :: fields).map fun f => (f.1, .scalar f.2), rest) := by
  induction fields generalizing f fuel with
  | nil =>
    obtain ⟨fuel, rfl⟩ := Nat.exists_eq_add_of_le' hfuel
    exact scanFields_field hf (stops_dumpsTail [] rest) fuel
  | cons g fields ih =>
    obtain ⟨fuel, rfl⟩ := Nat.exists_eq_add_of_le' hfuel
    have hg : g.2.Valid := hvalid g List.mem_cons_self
    have ih := ih (fun f hf => hvalid f (List.mem_cons_of_mem g hf)) hg
      (show fields.length + 2 ≤ fuel + (fields.length + 1) + 1 by omega)
    -- behind a field comes the comma and the next field
    have htail : dumpsTail (g :: fields) ++ rest
        = ',' :: ' ' :: (dumpsField g ++ (dumpsTail fields ++ rest)) := by
      rw [dumpsTail, List.cons_append, List.cons_append, List.append_assoc]
    have hspace : skipSpace (' ' :: (dumpsField g ++ (dumpsTail fields ++ rest)))
        = dumpsField g ++ (dumpsTail fields ++ rest) := by
      rw [dumpsField_append]
      rfl
    -- so the object is not closed yet
    have hclose : expect '}' (dumpsTail (g :: fields) ++ rest) = none := by
      rw [htail]
      rfl
    have hcomma : expect ',' (dumpsTail (g :: fields) ++ rest)
        = some (' ' :: (dumpsField g ++ (dumpsTail fields ++ rest))) := by
      rw [htail]
      rfl
    have hfield := scanFields_field hf (stops_dumpsTail (g :: fields) rest)
      (fuel + (fields.length + 1))
    rw [hclose, hcomma] at hfield
    simp only [Option.bind_some, hspace] at hfield
    exact hfield.trans (by rw [ih]; rfl)

theorem length_dumpsTail (fields : Flat) : fields.length + 1 ≤ (dumpsTail fields).length := by
  induction fields with
  | nil => exact le_rfl
  | cons f fields ih =>
    rw [dumpsTail, List.length_cons, List.length_cons, List.length_cons, List.length_append]
    omega

/-- **Flat objects are read back.** -/
theorem loads_dumps {fields : Flat} (hvalid : ∀ f ∈ fields, f.2.Valid) :
    loads (dumps fields) = some fields.value := by
  cases fields with
  | nil => rfl
  | cons f fields =>
    have hf : f.2.Valid := hvalid f List.mem_cons_self
    -- an object with a field is not empty
    have hclose : expect '}' (dumpsField f ++ dumpsTail fields) = none := by
      rw [dumpsField_append]
      rfl
    have hspace : skipSpace (dumpsField f ++ dumpsTail fields)
        = dumpsField f ++ dumpsTail fields := by
      rw [dumpsField_append]
      rfl
    -- the text is long enough for the fuel
    have hlen : fields.length + 2 ≤ (dumps (f :: fields)).length := by
      have htail := length_dumpsTail fields
      rw [dumps, List.length_cons, List.length_append]
      omega
    have hfields := scanFields_dumps (fun f hf => hvalid f (List.mem_cons_of_mem _ hf)) hf [] hlen
    rw [List.append_nil] at hfields
    have hvalue : scanValue ((dumps (f :: fields)).length + 1) (dumps (f :: fields))
        = some (Flat.value (f :: fields), []) := by
      rw [dumps, scanValue, if_neg (by decide), if_pos rfl, hclose]
      dsimp only
      rw [hspace, ← dumps, hfields]
      rfl
    have hstart : skipSpace (dumps (f :: fields)) = dumps (f :: fields) := rfl
    rw [loads, hstart, hvalue]
    rfl

end Dsv41Overlay.Json
