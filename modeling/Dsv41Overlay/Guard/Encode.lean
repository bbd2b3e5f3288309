import Mathlib.Data.Char
import Dsv41Overlay.Lib.Decimal
import Dsv41Overlay.Lib.Marker
import Dsv41Overlay.Tokens.Added
import Dsv41Overlay.Tokens.TriePattern

/-!
# The control-token guard

The patched tokenizer renders each conversation twice: as the served prompt, and
through a copy of the encoder whose control tokens are nonce markers.
`ControlTokenGuard.encode` receives both, splits the marked render at its
markers, checks that it maps back to the prompt, and encodes either the prompt
as before or, when a text between markers holds an added-token string, segment
by segment.

The tokenizers themselves are third-party code: `Tokenizer` holds the two calls
the guard makes. A render is an `Interleaving` of texts with markers, so
`ControlTokenGuard.prompt` and `ControlTokenGuard.marked` flatten one value in
two ways. `mark` is the substitution that produced the markers;
`marked_markItems` says that what it marks is such a render.
-/

namespace Dsv41Overlay
namespace Guard

open Tokens

/-! ### The guard -/

/-- `_ControlTokenGuard`. `tokens` are the control tokens that have a marker, in
the order of their markers; writing a marker's number has succeeded for each. -/
structure ControlTokenGuard where
  ids : AddedVocab
  /-- `secrets.token_hex(16)`. -/
  nonce : List Char
  tokens : List (List Char)
  ids_ne_nil : ids ≠ []
  nonce_hex : ∀ c ∈ nonce, c ∈ hexDigits
  nonce_length : nonce.length = 32
  tokens_mem : ∀ t ∈ tokens, t ∈ ids.words
  tokens_length : tokens.length ≤ 10 ^ maxStrDigits

/-- U+E000, which opens a marker. -/
def markerOpen : Char := Char.ofNat 0xe000

/-- U+E001, which closes a marker. -/
def markerClose : Char := Char.ofNat 0xe001

/-- The markers of a nonce: `"\ue000" + nonce + "#"`, a number, `"\ue001"`. -/
def markerShape (nonce : List Char) (h : ∀ c ∈ nonce, c ∈ hexDigits) : MarkerShape where
  opening := markerOpen
  body := nonce ++ ['#']
  closing := markerClose
  isDigit := isDecimal
  opening_not_mem := by
    rw [List.mem_append]
    rintro (hmem | hmem)
    · exact absurd (h _ hmem) (by decide)
    · exact absurd hmem (by decide)
  opening_not_digit := by decide
  closing_not_digit := by decide
  closing_ne_opening := by decide

namespace ControlTokenGuard

variable (g : ControlTokenGuard)

/-- The guard's markers; `lead` is `self._prefix`. -/
def shape : MarkerShape := markerShape g.nonce g.nonce_hex

/-- `self._scan`. -/
def scanPattern : Regex Char := Tokens.triePattern g.ids.words

/-- `self._marker`. -/
def markerPattern : Regex Char := g.shape.pattern

/-- The marker of control token `i`. -/
def marker (i : ℕ) : List Char := g.shape.render (pyStr i)

end ControlTokenGuard

/-! ### Marking the encoder's constants -/

section Mark

variable (scanPattern : Regex Char) (shape : MarkerShape)

/-- `_marker_for`: the marker of a control token, a new one on first use. -/
def markerFor (tokens : List (List Char)) (token : List Char) : List (List Char) × List Char :=
  if token ∈ tokens then (tokens, shape.render (pyStr (tokens.idxOf token)))
  else (tokens ++ [token], shape.render (pyStr tokens.length))

/-- The substitution of `_mark`, over the items of a scan. -/
def markItems : List (List Char) → List (Item Char) → List (List Char) × List Char
  | tokens, [] => (tokens, [])
  | tokens, .lit c :: items =>
    let r := markItems tokens items
    (r.1, c :: r.2)
  | tokens, .hit w :: items =>
    let m := markerFor shape tokens w
    let r := markItems m.1 items
    (r.1, m.2 ++ r.2)

/-- `_mark`: replace every added-token string of `text` by its marker. -/
def mark (tokens : List (List Char)) (text : List Char) : List (List Char) × List Char :=
  markItems shape tokens (scan scanPattern.matcher text)

variable {scanPattern shape}

/-- Marking numbers new tokens behind the old ones. -/
theorem markerFor_spec (tokens : List (List Char)) (token : List Char) :
    tokens <+: (markerFor shape tokens token).1
      ∧ (∀ t ∈ (markerFor shape tokens token).1, t ∈ tokens ∨ t = token)
      ∧ ∃ i, (markerFor shape tokens token).1[i]? = some token
          ∧ (markerFor shape tokens token).2 = shape.render (pyStr i) := by
  unfold markerFor
  split
  · next hmem =>
    refine ⟨List.prefix_refl _, fun t ht => .inl ht, tokens.idxOf token, ?_, rfl⟩
    exact List.getElem?_idxOf hmem
  · refine ⟨List.prefix_append _ _, fun t ht => ?_, tokens.length, ?_, rfl⟩
    · rw [List.mem_append, List.mem_singleton] at ht
      exact ht
    · rw [List.getElem?_append_right le_rfl, Nat.sub_self]
      rfl

/-- What marking leaves, from the tokens marked before and the items of a text. -/
structure Marked (shape : MarkerShape) (tokens : List (List Char)) (items : List (Item Char))
    (r : List (List Char) × List Char) : Prop where
  /-- Tokens keep their numbers. -/
  old : tokens <+: r.1
  /-- Every new token is an added-token string of the text. -/
  new : ∀ t ∈ r.1, t ∈ tokens ∨ .hit t ∈ items
  /-- The marked text and the text are one interleaving, written with the markers
  of the tokens and with their strings. -/
  render : ∃ x : Interleaving (Fin r.1.length) Char,
    r.2 = (x.flatten fun i => shape.render (pyStr i.val))
      ∧ items.flatMap Item.text = x.flatten fun i => r.1.get i

variable (shape) in
/-- The render has the texts between the hits. -/
theorem exists_render_markItems (items : List (Item Char)) (tokens : List (List Char)) :
    tokens <+: (markItems shape tokens items).1 ∧
    (∀ t ∈ (markItems shape tokens items).1, t ∈ tokens ∨ .hit t ∈ items) ∧
    ∃ x : Interleaving (Fin (markItems shape tokens items).1.length) Char,
      x.texts = (splitHits items).texts
        ∧ (markItems shape tokens items).2 = (x.flatten fun i => shape.render (pyStr i.val))
        ∧ items.flatMap Item.text = x.flatten fun i => (markItems shape tokens items).1.get i := by
  induction items generalizing tokens with
  | nil => exact ⟨List.prefix_refl _, fun t ht => .inl ht, ⟨[], []⟩, rfl, rfl, rfl⟩
  | cons item items ih =>
    cases item with
    -- a character joins the head of the render
    | lit c =>
      obtain ⟨hold, hnew, x, htexts, hmarked, htext⟩ := ih tokens
      refine ⟨hold, fun t ht => (hnew t ht).imp_right (List.mem_cons_of_mem _),
        ⟨c :: x.head, x.tail⟩, ?_, ?_, ?_⟩
      · obtain ⟨hhead, htail⟩ := List.cons.inj htexts
        show (c :: x.head) :: x.tail.map Prod.snd = _
        rw [hhead, htail]
        rfl
      · exact congrArg (c :: ·) hmarked
      · rw [List.flatMap_cons, htext]
        rfl
    | hit w =>
      obtain ⟨hold₁, hnew₁, i, hi, hmarker⟩ := markerFor_spec tokens w
      obtain ⟨hold, hnew, x, htexts, hmarked, htext⟩ := ih (markerFor shape tokens w).1
      -- later markings append tokens, so `w` keeps its number
      have hw : (markItems shape (markerFor shape tokens w).1 items).1[i]? = some w := by
        obtain ⟨rest, hrest⟩ := hold
        rw [← hrest, List.getElem?_append_left (List.getElem?_eq_some_iff.mp hi).1]
        exact hi
      obtain ⟨hlt, hget⟩ := List.getElem?_eq_some_iff.mp hw
      refine ⟨hold₁.trans hold, fun t ht => ?_, ⟨[], (⟨i, hlt⟩, x.head) :: x.tail⟩, ?_, ?_, ?_⟩
      · obtain h | h := hnew t ht
        · refine (hnew₁ t h).imp_right fun heq => ?_
          rw [heq]
          exact List.mem_cons_self ..
        · exact .inr (List.mem_cons_of_mem _ h)
      · exact congrArg ([] :: ·) htexts
      · show (markerFor shape tokens w).2 ++ _ = _
        rw [hmarked, hmarker]
        exact (Interleaving.flatten_label (fun j => shape.render (pyStr j.val)) ⟨i, hlt⟩ x).symm
      · show w ++ items.flatMap Item.text = _
        rw [htext]
        refine Eq.trans ?_ (Interleaving.flatten_label _ _ x).symm
        exact congrArg (· ++ _) hget.symm

/-- **Marking an encoder constant** gives a render. -/
theorem marked_markItems (items : List (Item Char)) (tokens : List (List Char)) :
    Marked shape tokens items (markItems shape tokens items) := by
  obtain ⟨hold, hnew, x, -, hmarked, htext⟩ := exists_render_markItems shape items tokens
  exact ⟨hold, hnew, x, hmarked, htext⟩

end Mark

/-! ### Encoding -/

/-- The `truncation` option: a boolean or a strategy's name. -/
inductive Truncation
  | flag (b : Bool)
  | strategy (name : String)
deriving Repr, DecidableEq

/-- The keyword arguments of `apply_chat_template` that `encode` reads. `none` is
an absent key; `max_length` may also be present and `None`. -/
structure Kwargs where
  tokenize : Option Bool
  truncation : Option Truncation
  maxLength : Option (Option ℕ)
deriving Repr, DecidableEq

/-- The options that `encode` passes on. -/
structure Options where
  truncation : Option Truncation
  maxLength : Option (Option ℕ)
deriving Repr, DecidableEq

def Kwargs.options (kwargs : Kwargs) : Options := ⟨kwargs.truncation, kwargs.maxLength⟩

/-- The third-party tokenizer: its own `encode`, the encoding of a text by the
copy without added tokens, and the side it truncates. -/
structure Tokenizer where
  encode : List Char → Options → List ℕ
  baseEncode : List Char → List ℕ
  truncationSide : String

/-- What `encode` returns: the prompt string or token ids. -/
inductive Encoded
  | prompt (text : List Char)
  | ids (ids : List ℕ)
deriving Repr, DecidableEq

/-- The limit `_truncate` applies, if any. -/
def Options.limit (options : Options) : Option ℕ :=
  match options.maxLength with
  | some (some maxLength) =>
    if options.truncation = some (.flag false)
        ∨ options.truncation = some (.strategy "do_not_truncate") then none
    else some maxLength
  | _ => none

/-- `_truncate`. On the left side a limit of `0` keeps everything: `ids[-0:]`. -/
def truncate (tokenizer : Tokenizer) (ids : List ℕ) (options : Options) : List ℕ :=
  match options.limit with
  | none => ids
  | some maxLength =>
    if ids.length ≤ maxLength then ids
    else if tokenizer.truncationSide = "left" then
      if maxLength = 0 then ids else ids.drop (ids.length - maxLength)
    else ids.take maxLength

/-- `if text: ids.extend(next(encoded).ids)`: the ids of one text and the
encodings left. -/
def nextEncoded (text : List Char) (encoded : List (List ℕ)) :
    Except PyError (List ℕ × List (List ℕ)) :=
  if text.isEmpty then .ok ([], encoded)
  else
    match encoded with
    | [] => .error .stopIteration
    | ids :: rest => .ok (ids, rest)

/-- The loop of `_encode_segments` behind the first text. -/
def segmentsLoop (v : AddedVocab) :
    List (List Char × List Char) → List (List ℕ) → Except PyError (List ℕ)
  | [], _ => .ok []
  | (token, text) :: rest, encoded =>
    match v.lookup token with
    -- `self._ids[token]`
    | none => .error .keyError
    | some id =>
      match nextEncoded text encoded with
      | .error e => .error e
      | .ok (ids, encoded) =>
        match segmentsLoop v rest encoded with
        | .error e => .error e
        | .ok tail => .ok (id :: ids ++ tail)

/-- `_encode_segments`: template tokens straight to their ids, every non-empty
text with the base vocabulary, in one batch. -/
def encodeSegments (v : AddedVocab) (tokenizer : Tokenizer)
    (pieces : Interleaving (List Char) Char) :
    Except PyError (List ℕ) :=
  let encoded := (pieces.texts.filter fun text => !text.isEmpty).map tokenizer.baseEncode
  match nextEncoded pieces.head encoded with
  | .error e => .error e
  | .ok (ids, encoded) =>
    match segmentsLoop v pieces.tail encoded with
    | .error e => .error e
    | .ok tail => .ok (ids ++ tail)

/-- `[int(index) for index in pieces[1::2]]`, kept beside the texts. -/
def readIndices (shape : MarkerShape) :
    List (List Char × List Char) → Except PyError (List (ℕ × List Char))
  | [] => .ok []
  | (marker, text) :: rest =>
    match pyInt (shape.digitsOf marker) with
    | .error e => .error e
    | .ok i =>
      match readIndices shape rest with
      | .error e => .error e
      | .ok indices => .ok ((i, text) :: indices)

/-- `_ControlTokenGuard.encode`. -/
def ControlTokenGuard.encode (g : ControlTokenGuard) (tokenizer : Tokenizer)
    (prompt marked : List Char) (kwargs : Kwargs) : Except PyError Encoded :=
  let pieces := splitHits (scan g.markerPattern.matcher marked)
  match readIndices g.shape pieces.tail with
  | .error e => .error e
  | .ok indices =>
    if indices.any fun p => decide (g.tokens.length ≤ p.1) then
      .error (.valueError "DeepSeek V4.1 control-token guard: unknown marker")
    else
      let tokens : Interleaving (List Char) Char :=
        ⟨pieces.head, indices.map fun p => (g.tokens.getD p.1 [], p.2)⟩
      if tokens.flatten id ≠ prompt then
        .error (.valueError "DeepSeek V4.1 control-token guard: marked render differs")
      else
        -- request text that spells an added token
        let dirty := tokens.texts.any (occurs g.scanPattern.matcher)
        if kwargs.tokenize.getD true then
          if !dirty then .ok (.ids (tokenizer.encode prompt kwargs.options))
          else
            match encodeSegments g.ids tokenizer tokens with
            | .error e => .error e
            | .ok ids => .ok (.ids (truncate tokenizer ids kwargs.options))
        -- the served path: a clean prompt goes back as the string it was
        else if dirty then
          match encodeSegments g.ids tokenizer tokens with
          | .error e => .error e
          | .ok ids => .ok (.ids ids)
        else .ok (.prompt prompt)

/-! ### Renders -/

namespace ControlTokenGuard

variable (g : ControlTokenGuard)

/-- A render: texts with control tokens of the template between them. -/
abbrev Render := Interleaving (Fin g.tokens.length) Char

variable {g}

/-- The served prompt of a render. -/
def prompt (x : g.Render) : List Char := x.flatten fun i => g.tokens.get i

/-- The marked render. -/
def marked (x : g.Render) : List Char := x.flatten fun i => g.marker i.val

/-- The id of a control token. -/
def idOf (i : Fin g.tokens.length) : ℕ := (g.ids.lookup (g.tokens.get i)).getD 0

/-- The ids of the template's tokens. -/
def templateIds (x : g.Render) : List ℕ := x.labels.map idOf

/-- The base-vocabulary ids of a text; an empty text is never encoded. -/
def textIds (tokenizer : Tokenizer) (text : List Char) : List ℕ :=
  if text.isEmpty then [] else tokenizer.baseEncode text

/-- The template tokens' ids with the encodings of the texts between them. -/
def segmentIds (tokenizer : Tokenizer) (x : g.Render) : List ℕ :=
  textIds tokenizer x.head ++ x.tail.flatMap fun p => idOf p.1 :: textIds tokenizer p.2

end ControlTokenGuard

end Guard
end Dsv41Overlay
