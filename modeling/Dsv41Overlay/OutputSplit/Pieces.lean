import Mathlib.Data.Char
import Mathlib.Data.List.Chain
import Dsv41Overlay.Lib.Cells
import Dsv41Overlay.Lib.Decimal
import Dsv41Overlay.Tokens.Added
import Dsv41Overlay.Tokens.TriePattern

/-!
# The decoded pieces of a completion

The output-token split reads a completion's ids as runs of ordinary ids with
added tokens between them. Each run is decoded on its own, by the tokenizer's
backend; an added token stands for its string. `layout` is the loop that finds
the runs, `pieces` the decoded result and `Piece.join` the text they spell.

The loop's state before the last flush, `Layout`, is what the streaming side
follows id by id, so the lemmas are about one step of the loop.
-/

namespace Dsv41Overlay
namespace OutputSplit

open Tokens

/-- `_OutputTokenSplit`. The decode of a run is the backend's. -/
structure OutputTokenSplit where
  added : AddedVocab
  decode : List ℕ → List Char
  /-- `secrets.token_hex(12)`. -/
  nonce : List Char
  nonce_hex : ∀ c ∈ nonce, c ∈ hexDigits
  nonce_length : nonce.length = 24

namespace OutputTokenSplit

variable (s : OutputTokenSplit)

/-- `self._texts`. -/
def texts (id : ℕ) : Option (List Char) := s.added.textOf id

/-- The words to look for: the added strings without surrounding whitespace. -/
def words : List (List Char) := s.added.words.filter fun text => !text.isEmpty && text == strip text

/-- `self._scan`, when there are words. -/
def scanPattern : Regex Char := triePattern s.words

/-- The placeholders: `"DSV41OTS" + nonce + "n"`, a number, `"z"`. -/
def shape : MarkerShape where
  opening := 'D'
  body := "SV41OTS".toList ++ s.nonce ++ ['n']
  closing := 'z'
  isDigit := isAsciiDigit
  opening_not_mem := by
    rw [List.mem_append, List.mem_append]
    rintro ((hmem | hmem) | hmem)
    · exact absurd hmem (by decide)
    · exact absurd (s.nonce_hex _ hmem) (by decide)
    · exact absurd hmem (by decide)
  opening_not_digit := by decide
  closing_not_digit := by decide
  closing_ne_opening := by decide

theorem ne_nil_of_mem_words {w : List Char} (h : w ∈ s.words) : w ≠ [] := by
  obtain ⟨-, hw⟩ := List.mem_filter.mp h
  rintro rfl
  exact Bool.noConfusion hw

theorem matcher_scanPattern (h : s.words ≠ []) : s.scanPattern.matcher = longest s.words :=
  matcher_triePattern h

theorem isNumeral_pyStr (n : ℕ) : s.shape.IsNumeral (pyStr n) :=
  ⟨pyStr_ne_nil n, fun _ hc => isAsciiDigit_of_mem_pyStr hc⟩

end OutputTokenSplit

/-! ### The layout -/

/-- An entry of `layout`: a run of ordinary ids or an added token's text. The
code keeps the runs in a list of their own, decodes it in one call and holds
their indices here. -/
inductive LayoutItem
  | run (ids : List ℕ)
  | token (text : List Char)
deriving Repr, DecidableEq

/-- The state of the loop over the ids: the entries so far and the open run. -/
structure Layout where
  items : List LayoutItem
  run : List ℕ
deriving Repr, DecidableEq

/-- The open run as an entry, if it has ids. -/
def flush (run : List ℕ) : List LayoutItem := if run.isEmpty then [] else [.run run]

/-- One step of the loop. -/
def Layout.push (s : OutputTokenSplit) (l : Layout) (id : ℕ) : Layout :=
  match s.texts id with
  | none => ⟨l.items, l.run ++ [id]⟩
  | some text => ⟨l.items ++ flush l.run ++ [.token text], []⟩

/-- The loop over the ids. -/
def layoutLoop (s : OutputTokenSplit) (ids : List ℕ) : Layout := ids.foldl (Layout.push s) ⟨[], []⟩

/-- `layout`, after the last run. -/
def layout (s : OutputTokenSplit) (ids : List ℕ) : List LayoutItem :=
  (layoutLoop s ids).items ++ flush (layoutLoop s ids).run

theorem layoutLoop_append (s : OutputTokenSplit) (ids more : List ℕ) :
    layoutLoop s (ids ++ more) = more.foldl (Layout.push s) (layoutLoop s ids) :=
  List.foldl_append

/-! ### The pieces -/

/-- An entry decoded. -/
inductive Piece
  | ordinary (text : List Char)
  | token (text : List Char)
deriving Repr, DecidableEq

namespace Piece

def text : Piece → List Char
  | ordinary t => t
  | token t => t

def isToken : Piece → Bool
  | ordinary _ => false
  | token _ => true

/-- `"".join(pieces)`. -/
def join (pieces : List Piece) : List Char := pieces.flatMap text

@[simp] theorem text_ordinary (t : List Char) : (ordinary t).text = t := rfl
@[simp] theorem text_token (t : List Char) : (token t).text = t := rfl
@[simp] theorem join_nil : join [] = [] := rfl

@[simp] theorem join_cons (p : Piece) (pieces : List Piece) :
    join (p :: pieces) = p.text ++ join pieces := List.flatMap_cons ..

@[simp] theorem join_append (a b : List Piece) : join (a ++ b) = join a ++ join b :=
  List.flatMap_append

/-- Two runs never touch: a token closes each run that is not the last. -/
def Alternating (pieces : List Piece) : Prop :=
  pieces.IsChain fun p q => p.isToken = true ∨ q.isToken = true

end Piece

/-- An entry's piece. -/
def LayoutItem.piece (s : OutputTokenSplit) : LayoutItem → Piece
  | .run ids => .ordinary (s.decode ids)
  | .token text => .token text

/-- `pieces`. -/
def pieces (s : OutputTokenSplit) (ids : List ℕ) : List Piece :=
  (layout s ids).map (LayoutItem.piece s)

/-- The pieces that the loop has closed. -/
def Layout.closed (s : OutputTokenSplit) (l : Layout) : List Piece :=
  l.items.map (LayoutItem.piece s)

/-- The open run as a piece, if it has ids. -/
def openPiece (s : OutputTokenSplit) (run : List ℕ) : List Piece :=
  if run.isEmpty then [] else [.ordinary (s.decode run)]

theorem pieces_eq (s : OutputTokenSplit) (ids : List ℕ) :
    pieces s ids = (layoutLoop s ids).closed s ++ openPiece s (layoutLoop s ids).run := by
  rw [pieces, layout, List.map_append, Layout.closed, openPiece, flush]
  split <;> rfl

/-- What one id does to the closed pieces. -/
theorem closed_push (s : OutputTokenSplit) (l : Layout) (id : ℕ) :
    (l.push s id).closed s = match s.texts id with
      | none => l.closed s
      | some text => l.closed s ++ openPiece s l.run ++ [.token text] := by
  unfold Layout.push Layout.closed openPiece flush
  split
  · rfl
  · rw [List.map_append, List.map_append]
    split <;> rfl

/-- **Runs are separated by tokens.** -/
theorem alternating_pieces (s : OutputTokenSplit) (ids : List ℕ) :
    Piece.Alternating (pieces s ids) := by
  -- the closed pieces end with a token, so the open run may follow them
  have hopen : ∀ l : Layout, Piece.Alternating (l.closed s) →
      (∀ p ∈ (l.closed s).getLast?, p.isToken = true) →
      Piece.Alternating (l.closed s ++ openPiece s l.run) := by
    intro l hchain hlast
    unfold openPiece
    split
    · rw [List.append_nil]
      exact hchain
    · refine List.isChain_append.mpr ⟨hchain, List.isChain_singleton _, ?_⟩
      intro p hp q _
      exact .inl (hlast p hp)
  have hinv : Piece.Alternating ((layoutLoop s ids).closed s)
      ∧ ∀ p ∈ ((layoutLoop s ids).closed s).getLast?, p.isToken = true := by
    induction ids using List.reverseRecOn with
    | nil => exact ⟨List.isChain_nil, fun p hp => absurd hp (by simp [layoutLoop, Layout.closed])⟩
    | append_singleton ids id ih =>
      rw [layoutLoop_append, List.foldl_cons, List.foldl_nil, closed_push]
      -- an ordinary id closes no piece
      split
      · exact ih
      · refine ⟨List.isChain_append.mpr ⟨hopen _ ih.1 ih.2, List.isChain_singleton _, ?_⟩, ?_⟩
        · intro p _ q hq
          obtain rfl : q = _ := (Option.mem_some_iff.mp hq).symm
          exact .inr rfl
        · intro p hp
          rw [List.getLast?_concat] at hp
          obtain rfl : p = _ := (Option.mem_some_iff.mp hp).symm
          rfl
  rw [pieces_eq]
  exact hopen _ hinv.1 hinv.2

/-! ### An example -/

/-- A splitter with one added token, whose ordinary ids are code points. -/
def dsmlSplit : OutputTokenSplit where
  added := [("｜DSML｜".toList, 1)]
  decode := List.map Char.ofNat
  nonce := List.replicate 24 'a'
  nonce_hex := by
    intro c hc
    obtain rfl := List.eq_of_mem_replicate hc
    decide
  nonce_length := List.length_replicate

/-- The ids of a quoted `｜DSML｜` and of the real one. -/
def quotedIds : List ℕ := "｜DSML｜".toList.map Char.toNat ++ [1]

example :
    pieces dsmlSplit quotedIds = [.ordinary "｜DSML｜".toList, .token "｜DSML｜".toList] := by decide

end OutputSplit
end Dsv41Overlay
