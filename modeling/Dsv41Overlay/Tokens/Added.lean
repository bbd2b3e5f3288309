import Mathlib.Data.List.Basic

/-!
# Added tokens

What the patches read of a tokenizer's added vocabulary, and the alphabet of
their nonces.
-/

namespace Dsv41Overlay
namespace Tokens

/-- `get_added_vocab()`: the added tokens' strings and ids. -/
abbrev AddedVocab := List (List Char × ℕ)

namespace AddedVocab

/-- The strings of an added vocabulary. -/
def words (v : AddedVocab) : List (List Char) := v.map Prod.fst

/-- The id is an added token's. -/
def hasId (v : AddedVocab) (id : ℕ) : Bool := decide (id ∈ v.map Prod.snd)

/-- `{token_id: text for text, token_id in added.items()}`: the last string of an
id counts. -/
def textOf (v : AddedVocab) (id : ℕ) : Option (List Char) :=
  (v.reverse.find? fun p => p.2 == id).map Prod.fst

end AddedVocab

/-- `secrets.token_hex` writes these. -/
def hexDigits : List Char := "0123456789abcdef".toList

/-! ### Surrounding whitespace -/

/-- `str.isspace`, for one character. -/
def isSpace (c : Char) : Bool :=
  decide ((9 ≤ c.toNat ∧ c.toNat ≤ 13) ∨ (0x1c ≤ c.toNat ∧ c.toNat ≤ 0x20)
    ∨ (0x2000 ≤ c.toNat ∧ c.toNat ≤ 0x200a)
    ∨ c.toNat ∈ [0x85, 0xa0, 0x1680, 0x2028, 0x2029, 0x202f, 0x205f, 0x3000])

/-- `str.strip`. -/
def strip (t : List Char) : List Char :=
  ((t.dropWhile isSpace).reverse.dropWhile isSpace).reverse

example : strip " <think>\n".toList = "<think>".toList := by decide

end Tokens
end Dsv41Overlay
