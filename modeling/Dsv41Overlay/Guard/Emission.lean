import Mathlib.Data.List.GetD
import Dsv41Overlay.Guard.Encoder

/-!
# What a render emits

Between two texts of the request, a template emits strings of its own: those that it reads
from its module and those written in its functions, each one whole. The guard needs a marker
for every control token in this text. That every string is marked is not enough: the check
accepts `"<" + "think>"`, where the token is in neither string.

`Whole` says that no token is put together in this way, and `marked_encoding_iff` that it and
the condition on the module are exactly what the marking needs.
-/

namespace Dsv41Overlay
namespace Guard

open Tokens Py

/-! ### Emitting -/

/-- A string that a template emits of its own: the `i`-th that can be read from the module, or
one written in a function. -/
inductive Piece
  | read (i : ℕ)
  | written (s : List Char)
deriving DecidableEq, Repr

/-- Its text, in a module with these strings. -/
def Piece.text (strings : List (List Char)) : Piece → List Char
  | .read i => strings.getD i []
  | .written s => s

/-- The module has the string. -/
def Piece.Of (body : List Stmt) (globals : Namespace) : Piece → Prop
  | .read i => i < globals.strings.length
  | .written s => s ∈ writtenStrings body

instance (body : List Stmt) (globals : Namespace) : (p : Piece) → Decidable (p.Of body globals)
  | .read i => inferInstanceAs (Decidable (i < globals.strings.length))
  | .written s => inferInstanceAs (Decidable (s ∈ writtenStrings body))

/-- The text of a row of strings. -/
def emit (strings : List (List Char)) (row : List Piece) : List Char :=
  row.flatMap (Piece.text strings)

section Emit

variable (ids : AddedVocab) (shape : MarkerShape) (globals : Namespace) (row : List Piece)

/-- The tokens that are found in the single strings, and the characters between them. -/
def foundItems : List (Item Char) :=
  row.flatMap fun p => scan (longest ids.words) (p.text globals.strings)

/-- No control token is left between those that are found in the single strings: none is put
together out of several strings. -/
def Whole : Prop := ∀ u ∈ (splitHits (foundItems ids globals row)).texts, ¬HoldsToken ids u

instance : Decidable (Whole ids globals row) :=
  inferInstanceAs
    (Decidable (∀ u ∈ (splitHits (foundItems ids globals row)).texts, ¬HoldsToken ids u))

/-- **The render marks every control token of the row**: through the private copy the row is
the marked form of its text. -/
def EmitsMarked : Prop :=
  let r := markedEncoding ids shape globals
  MarkedForm ids shape r.1 (emit globals.strings row) (emit r.2.strings row)

end Emit

/-! ### Reading markers -/

/-- A string without the character lies before or behind it. -/
theorem infix_append_cons {c : Char} {w a b : List Char} (hc : c ∉ w) (h : w <:+: a ++ c :: b) :
    w <:+: a ∨ w <:+: b := by
  obtain ⟨p, q, h⟩ := h
  rcases List.append_eq_append_iff.mp h with ⟨r, rfl, -⟩ | ⟨r, hpw, hr⟩
  · exact .inl ⟨p, r, rfl⟩
  cases r with
  | nil =>
    rw [List.append_nil] at hpw
    exact .inl ⟨p, [], by rw [List.append_nil]; exact hpw⟩
  | cons d r =>
    obtain ⟨rfl, rfl⟩ := List.cons.inj hr
    -- the string ends behind the character, so it begins there too
    rcases List.append_eq_append_iff.mp hpw with ⟨k, -, hw⟩ | ⟨k, rfl, hk⟩
    · refine absurd ?_ hc
      rw [hw]
      exact List.mem_append_right _ List.mem_cons_self
    · cases k with
      | nil =>
        rw [List.nil_append] at hk
        refine absurd ?_ hc
        rw [← hk]
        exact List.mem_cons_self
      | cons e k =>
        obtain ⟨-, rfl⟩ := List.cons.inj hk
        exact .inr ⟨k, q, rfl⟩

section Items

variable {ids : AddedVocab} {shape : MarkerShape} {tokens : List (List Char)}

/-- **Markers hide nothing**: a string that cannot overlap a marker stands in a text between
them. -/
theorem exists_text_of_infix {w : List Char} (hopening : shape.opening ∉ w)
    (hclosing : shape.closing ∉ w) (hplain : ∃ c ∈ w, c ∉ shape.body ∧ shape.isDigit c = false)
    {numeral : ℕ → List Char} (hnumeral : ∀ i, ∀ c ∈ numeral i, shape.isDigit c = true)
    (x : Interleaving (Fin tokens.length) Char)
    (h : w <:+: x.flatten fun i => shape.render (numeral i.val)) : ∃ u ∈ x.texts, w <:+: u := by
  obtain ⟨head, tail⟩ := x
  induction tail generalizing head with
  | nil =>
    rw [Interleaving.flatten, List.flatMap_nil, List.append_nil] at h
    exact ⟨head, List.mem_cons_self, h⟩
  | cons p tail ih =>
    have hsplit : (Interleaving.mk head (p :: tail)).flatten
        (fun i => shape.render (numeral i.val)) =
          head ++ shape.opening :: (shape.body ++ numeral p.1.val) ++ shape.closing ::
            (Interleaving.mk p.2 tail).flatten fun i => shape.render (numeral i.val) := by
      simp [Interleaving.flatten, MarkerShape.render, MarkerShape.lead]
    rw [hsplit, List.append_assoc, List.cons_append] at h
    rcases infix_append_cons hopening h with h | h
    · exact ⟨head, List.mem_cons_self, h⟩
    rcases infix_append_cons hclosing h with h | h
    · -- the inside of a marker has no room for it
      obtain ⟨c, hc, hbody, hdigit⟩ := hplain
      rcases List.mem_append.mp (h.subset hc) with hmem | hmem
      · exact absurd hmem hbody
      · exact absurd (hnumeral _ c hmem) (by rw [hdigit]; exact Bool.false_ne_true)
    · obtain ⟨u, hu, hwu⟩ := ih p.2 h
      exact ⟨u, List.mem_cons_of_mem _ hu, hwu⟩

/-- Items whose tokens have a number are a text with labels. -/
theorem exists_interleaving {items : List (Item Char)} (hhits : ∀ w, .hit w ∈ items → w ∈ tokens) :
    ∃ x : Interleaving (Fin tokens.length) Char, x.texts = (splitHits items).texts ∧
      items.flatMap Item.text = (x.flatten fun i => tokens.get i) ∧
      items.flatMap (markerItem shape tokens) =
        x.flatten fun i => shape.render (pyStr i.val) := by
  induction items with
  | nil => exact ⟨⟨[], []⟩, rfl, rfl, rfl⟩
  | cons item items ih =>
    obtain ⟨x, htexts, htext, hmarked⟩ := ih fun w hw => hhits w (List.mem_cons_of_mem _ hw)
    cases item with
    | lit c =>
      refine ⟨⟨c :: x.head, x.tail⟩, ?_, congrArg (c :: ·) htext, congrArg (c :: ·) hmarked⟩
      obtain ⟨hhead, htail⟩ := List.cons.inj htexts
      show (c :: x.head) :: x.tail.map Prod.snd = _
      rw [hhead, htail]
      rfl
    | hit w =>
      -- the token's number is where it stands first
      have hlt := List.idxOf_lt_length_of_mem (hhits w List.mem_cons_self)
      refine ⟨⟨[], (⟨tokens.idxOf w, hlt⟩, x.head) :: x.tail⟩, congrArg ([] :: ·) htexts, ?_, ?_⟩
      · rw [List.flatMap_cons, htext]
        refine Eq.trans ?_ (Interleaving.flatten_label _ _ x).symm
        exact congrArg (· ++ _) (List.idxOf_get hlt).symm
      · rw [List.flatMap_cons, hmarked]
        exact (Interleaving.flatten_label (fun i : Fin tokens.length => shape.render (pyStr i.val))
          ⟨tokens.idxOf w, hlt⟩ x).symm

/-- **When items are marked**: if and only if no token is left between their tokens. -/
theorem markedForm_items_iff {items : List (Item Char)} (hhits : ∀ w, .hit w ∈ items → w ∈ tokens)
    (hopening : ∀ w ∈ ids.words, shape.opening ∉ w) (hclosing : ∀ w ∈ ids.words, shape.closing ∉ w)
    (hplain : ∀ w ∈ ids.words, ∃ c ∈ w, c ∉ shape.body ∧ shape.isDigit c = false)
    (hnumeral : ∀ i : ℕ, ∀ c ∈ pyStr i, shape.isDigit c = true) :
    MarkedForm ids shape tokens (items.flatMap Item.text)
        (items.flatMap (markerItem shape tokens)) ↔
      ∀ u ∈ (splitHits items).texts, ¬HoldsToken ids u := by
  constructor
  · rintro ⟨x, htexts, -, hmarked⟩ u hu ⟨w, hw, hwu⟩
    -- the text is in the render as it is
    obtain ⟨p, q, rfl⟩ := exists_lits_of_mem_texts hu
    have hlits : (u.map Item.lit).flatMap (markerItem shape tokens) = u := by
      rw [List.flatMap_map]
      exact List.flatMap_singleton' u
    have hin : w <:+: (p ++ u.map Item.lit ++ q).flatMap (markerItem shape tokens) := by
      rw [List.flatMap_append, List.flatMap_append, hlits]
      exact hwu.trans ⟨_, _, rfl⟩
    rw [hmarked] at hin
    obtain ⟨v, hv, hwv⟩ := exists_text_of_infix (hopening w hw) (hclosing w hw) (hplain w hw)
      hnumeral x hin
    exact htexts v hv ⟨w, hw, hwv⟩
  · intro hclean
    obtain ⟨x, htexts, htext, hmarked⟩ := exists_interleaving hhits
    exact ⟨x, fun u hu => hclean u (htexts ▸ hu), htext, hmarked⟩

end Items

/-! ### The result -/

/-- A marker is made of the nonce, `#` and digits; no needle fits in. -/
theorem exists_plain {ids : AddedVocab} {nonce : List Char} (hnonce : ∀ c ∈ nonce, c ∈ hexDigits)
    (hneedles : ∀ w ∈ ids.words, ∃ needle ∈ needles, needle <:+: w) :
    ∀ w ∈ ids.words, ∃ c ∈ w, c ∉ (markerShape nonce hnonce).body ∧
      (markerShape nonce hnonce).isDigit c = false := by
  intro w hw
  obtain ⟨needle, hneedle, hin⟩ := hneedles w hw
  have hchar : ∃ c ∈ needle, c ∉ hexDigits ∧ c ≠ '#' ∧ isDecimal c = false := by
    have hsign : ∀ needle ∈ needles, '｜' ∈ needle ∨ '<' ∈ needle := by decide
    rcases hsign needle hneedle with hmem | hmem
    · exact ⟨'｜', hmem, by decide, by decide, by decide⟩
    · exact ⟨'<', hmem, by decide, by decide, by decide⟩
  obtain ⟨c, hc, hhex, hhash, hdigit⟩ := hchar
  refine ⟨c, hin.subset hc, ?_, hdigit⟩
  show c ∉ nonce ++ ['#']
  rw [List.mem_append, List.mem_singleton]
  rintro (hmem | hmem)
  · exact hhex (hnonce c hmem)
  · exact hhash hmem

theorem nil_not_mem_words {ids : AddedVocab}
    (hneedles : ∀ w ∈ ids.words, ∃ needle ∈ needles, needle <:+: w) : [] ∉ ids.words := by
  intro hmem
  obtain ⟨needle, hneedle, hin⟩ := hneedles [] hmem
  have hnil : needle = [] := List.infix_nil.mp hin
  exact absurd (hnil ▸ hneedle) (by decide)

section Rows

variable {ids : AddedVocab} {shape : MarkerShape} {body : List Stmt} {globals : Namespace}
  {row : List Piece}

/-- A row emits the texts of the items that are found in it. -/
theorem emit_eq : emit globals.strings row = (foundItems ids globals row).flatMap Item.text := by
  rw [emit, foundItems, List.flatMap_assoc]
  exact List.flatMap_congr fun p _ => (flatMap_text_scan _ _).symm

/-- **When a row is marked**, in a module without tokens that the marking keeps. -/
theorem emitsMarked_iff (hids : ids.words ≠ []) (hne : [] ∉ ids.words)
    (hopening : ∀ w ∈ ids.words, shape.opening ∉ w) (hclosing : ∀ w ∈ ids.words, shape.closing ∉ w)
    (hplain : ∀ w ∈ ids.words, ∃ c ∈ w, c ∉ shape.body ∧ shape.isDigit c = false)
    (hnumeral : ∀ i : ℕ, ∀ c ∈ pyStr i, shape.isDigit c = true)
    (hdefaults : ∀ s ∈ globals.defaults, ¬HoldsToken ids s)
    (hwritten : ∀ s ∈ writtenStrings body, ¬HoldsToken ids s)
    (hkept : ∀ s ∈ keptIn globals, ¬HoldsToken ids s) (hrow : ∀ p ∈ row, p.Of body globals) :
    EmitsMarked ids shape globals row ↔ Whole ids globals row := by
  obtain ⟨hstrings, hfound⟩ := strings_markedEncoding hids hne hopening hdefaults hkept
  have hhits : ∀ w, .hit w ∈ foundItems ids globals row →
      w ∈ (markedEncoding ids shape globals).1 := by
    intro w hw
    obtain ⟨p, hp, hw⟩ := List.mem_flatMap.mp hw
    have hof := hrow p hp
    cases p with
    | read i =>
      refine hfound _ ?_ w hw
      rw [Piece.text, List.getD_eq_getElem _ _ hof]
      exact List.getElem_mem hof
    | written s => exact absurd hw (not_hit_of_clean (hwritten s hof) w)
  -- every string of the row is what the scan makes of it
  have hemit : emit (markedEncoding ids shape globals).2.strings row =
      (foundItems ids globals row).flatMap
        (markerItem shape (markedEncoding ids shape globals).1) := by
    rw [emit, foundItems, List.flatMap_assoc]
    refine List.flatMap_congr fun p hp => ?_
    have hof := hrow p hp
    cases p with
    | read i =>
      have hlt : i < (globals.strings.map (markedText ids shape
          (markedEncoding ids shape globals).1)).length := by
        rw [List.length_map]
        exact hof
      rw [Piece.text, Piece.text, hstrings, List.getD_eq_getElem _ _ hlt, List.getElem_map,
        List.getD_eq_getElem _ _ hof]
      rfl
    | written s => exact (markedText_of_clean (hwritten s hof)).symm
  have hold : emit globals.strings row = (foundItems ids globals row).flatMap Item.text := emit_eq
  rw [EmitsMarked, hold, hemit]
  exact markedForm_items_iff hhits hopening hclosing hplain hnumeral

end Rows

/-- The control token `<think>`. -/
def thinkIds : AddedVocab := [("<think>".toList, 128821)]

def nonceA : List Char := List.replicate 32 'a'

theorem nonceA_hex : ∀ c ∈ nonceA, c ∈ hexDigits := by
  intro c hc
  obtain rfl := List.eq_of_mem_replicate hc
  decide

/-- No other expression has a value. -/
def noOp : Name → List Value → Option Value := fun _ _ => none

theorem keeps_noOp (P : List Char → Prop) : Keeps P noOp :=
  fun _ _ _ h => absurd h.symm (Option.some_ne_none _)

/-- `START = "<think>"`, `TOKENS = {"start": [START]}` and a function with a default. -/
def constantsModule : List Stmt :=
  [.assign ["START".toList] (.const 1 (.str "<think>".toList)),
    .assign ["TOKENS".toList]
      (.dict 2 [.const 2 (.str "start".toList)] [.list 2 [.name 2 "START".toList]]),
    .functionDef "render".toList [.const 3 (.str "user".toList)]
      [.other [.name 4 "START".toList] []]]

/-- A function that returns `"<" + "think>"`. -/
def concatModule : List Stmt :=
  [.functionDef "turn".toList []
    [.other [.add 2 (.const 2 (.str "<".toList)) (.const 2 (.str "think>".toList))] []]]

/-- The check accepts it, nothing is left to mark, and the token is in neither string. -/
example : ∃ globals, checkEncoderSource concatModule = .ok () ∧
    execModule noOp concatModule = some globals ∧ (∀ s ∈ keptIn globals, ¬HoldsToken thinkIds s) ∧
    ¬Whole thinkIds globals [.written "<".toList, .written "think>".toList] :=
  ⟨_, rfl, rfl, by decide, by decide⟩

/-- `START = "<think>"` and a class with `start = START`. -/
def classModule : List Stmt :=
  [.assign ["START".toList] (.const 1 (.str "<think>".toList)),
    .classDef "Turn".toList [.assign ["start".toList] (.name 3 "START".toList)]]

end Guard
end Dsv41Overlay
