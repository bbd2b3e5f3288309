import Mathlib.Data.List.Basic
import Mathlib.Data.Nat.Digits.Lemmas

/-!
# Decimal numerals in Python strings

`str(n)` writes a natural number in ASCII digits. `int(s)` reads a numeral back,
and accepts every Unicode decimal digit, in any mixture; numerals longer than
the interpreter's limit are refused. `\d` matches the same digits.
-/

namespace Dsv41Overlay

/-- The exceptions the modelled code raises. -/
inductive PyError
  | valueError (msg : String)
  | keyError
  | indexError
  | stopIteration
deriving Repr, DecidableEq

/-! ### Digits -/

/-- The code points of the Unicode zero digits; the digits of a script are the
ten code points from its zero on. -/
def decimalZeros : List ℕ :=
  [0x30, 0x660, 0x6f0, 0x7c0, 0x966, 0x9e6, 0xa66, 0xae6, 0xb66, 0xbe6, 0xc66, 0xce6, 0xd66,
   0xde6, 0xe50, 0xed0, 0xf20, 0x1040, 0x1090, 0x17e0, 0x1810, 0x1946, 0x19d0, 0x1a80, 0x1a90,
   0x1b50, 0x1bb0, 0x1c40, 0x1c50, 0xa620, 0xa8d0, 0xa900, 0xa9d0, 0xa9f0, 0xaa50, 0xabf0, 0xff10,
   0x104a0, 0x10d30, 0x11066, 0x110f0, 0x11136, 0x111d0, 0x112f0, 0x11450, 0x114d0, 0x11650,
   0x116c0, 0x11730, 0x118e0, 0x11950, 0x11c50, 0x11d50, 0x11da0, 0x11f50, 0x16a60, 0x16ac0,
   0x16b50, 0x1d7ce, 0x1d7d8, 0x1d7e2, 0x1d7ec, 0x1d7f6, 0x1e140, 0x1e2f0, 0x1e4f0, 0x1e950,
   0x1fbf0]

/-- The value of a decimal digit. -/
def decimalValue (c : Char) : Option ℕ :=
  (decimalZeros.find? fun z => decide (z ≤ c.toNat ∧ c.toNat < z + 10)).map (c.toNat - ·)

/-- `\d`. -/
def isDecimal (c : Char) : Bool := (decimalValue c).isSome

/-- `[0-9]`. -/
def isAsciiDigit (c : Char) : Bool := decide ('0' ≤ c ∧ c ≤ '9')

/-- The ASCII digit of value `d < 10`. -/
def digitChar (d : ℕ) : Char := Char.ofNat (48 + d)

theorem decimalValue_digitChar {d : ℕ} (h : d < 10) : decimalValue (digitChar d) = some d := by
  interval_cases d <;> rfl

theorem isAsciiDigit_digitChar {d : ℕ} (h : d < 10) : isAsciiDigit (digitChar d) = true := by
  interval_cases d <;> rfl

/-! ### Numerals -/

/-- `str(n)`. -/
def pyStr (n : ℕ) : List Char :=
  if n = 0 then ['0'] else (Nat.digits 10 n).reverse.map digitChar

/-- The interpreter's limit on the digits of a numeral. -/
def maxStrDigits : ℕ := 4300

/-- `int(s)` on a string of digits. -/
def pyInt (s : List Char) : Except PyError ℕ :=
  match s.mapM decimalValue with
  | none => .error (.valueError "invalid literal for int() with base 10")
  | some [] => .error (.valueError "invalid literal for int() with base 10")
  | some (d :: ds) =>
    if maxStrDigits < (d :: ds).length then
      .error (.valueError "Exceeds the limit (4300 digits) for integer string conversion")
    else .ok (Nat.ofDigits 10 (d :: ds).reverse)

theorem pyStr_ne_nil (n : ℕ) : pyStr n ≠ [] := by
  unfold pyStr
  split
  · exact List.cons_ne_nil _ _
  · next h =>
    rw [Ne, List.map_eq_nil_iff, List.reverse_eq_nil_iff]
    exact Nat.digits_ne_nil_iff_ne_zero.mpr h

theorem isAsciiDigit_of_mem_pyStr {n : ℕ} {c : Char} (h : c ∈ pyStr n) :
    isAsciiDigit c = true := by
  unfold pyStr at h
  split at h
  · obtain rfl := List.mem_singleton.mp h
    rfl
  · obtain ⟨d, hd, rfl⟩ := List.mem_map.mp h
    exact isAsciiDigit_digitChar (Nat.digits_lt_base (by norm_num) (List.mem_reverse.mp hd))

theorem isDecimal_of_mem_pyStr {n : ℕ} {c : Char} (h : c ∈ pyStr n) : isDecimal c = true := by
  unfold pyStr at h
  split at h
  · obtain rfl := List.mem_singleton.mp h
    rfl
  · obtain ⟨d, hd, rfl⟩ := List.mem_map.mp h
    rw [isDecimal, decimalValue_digitChar
      (Nat.digits_lt_base (by norm_num) (List.mem_reverse.mp hd))]
    rfl

/-- The digits of a numeral are read back one by one. -/
theorem mapM_decimalValue {ds : List ℕ} (h : ∀ d ∈ ds, d < 10) :
    (ds.map digitChar).mapM decimalValue = some ds := by
  induction ds with
  | nil => rfl
  | cons d ds ih =>
    rw [List.map_cons, List.mapM_cons, decimalValue_digitChar (h d (List.mem_cons_self ..)),
      ih fun e he => h e (List.mem_cons_of_mem _ he)]
    rfl

/-- **Numerals round-trip.** -/
theorem pyInt_pyStr {n : ℕ} (h : n < 10 ^ maxStrDigits) : pyInt (pyStr n) = .ok n := by
  by_cases hn : n = 0
  · subst hn
    rfl
  · have hmap : (pyStr n).mapM decimalValue = some (Nat.digits 10 n).reverse := by
      rw [pyStr, if_neg hn]
      refine mapM_decimalValue fun d hd => ?_
      exact Nat.digits_lt_base (by norm_num) (List.mem_reverse.mp hd)
    -- the limit counts digits, and there are as many as the power says
    have hlen : (Nat.digits 10 n).reverse.length ≤ maxStrDigits := by
      rw [List.length_reverse]
      exact (Nat.digits_length_le_iff (by norm_num) n).mpr h
    unfold pyInt
    rw [hmap]
    cases hds : (Nat.digits 10 n).reverse with
    | nil =>
      rw [List.reverse_eq_nil_iff] at hds
      exact absurd hds (Nat.digits_ne_nil_iff_ne_zero.mpr hn)
    | cons d ds =>
      rw [hds] at hlen
      dsimp only
      rw [if_neg (Nat.not_lt.mpr hlen), ← hds, List.reverse_reverse, Nat.ofDigits_digits]

end Dsv41Overlay
