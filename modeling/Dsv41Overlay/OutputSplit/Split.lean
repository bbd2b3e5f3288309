import Dsv41Overlay.OutputSplit.Pieces

/-!
# Masking an output text

`split` aligns the output text with the decoded pieces and replaces, in the
visible part of every run, each added-token word by a numbered placeholder.

The masking loop carries the number of the next placeholder and the room left in
the text. Its result is written over `atoms`: the characters of the runs, the
masked words with their numbers, and the real tokens' texts. Everything the split
promises is read off the atoms (`split_spec`): written with the masked words
they are the output text, written with placeholders the masked text. A word that
is left in the masked text and touches neither a placeholder nor a real token's
piece would be a block of characters of one run, and there the scan has found
every word.
-/

namespace Dsv41Overlay
namespace OutputSplit

open Tokens

/-! ### The code -/

/-- `scan.sub(mask, visible)` over the items of a scan, with `n` originals before
it: the masked text and the new originals. -/
def maskItems (k : MarkerShape) : ℕ → List (Item Char) → List Char × List (List Char)
  | _, [] => ([], [])
  | n, .lit c :: rest =>
    let r := maskItems k n rest
    (c :: r.1, r.2)
  | n, .hit w :: rest =>
    let r := maskItems k (n + 1) rest
    (k.render (pyStr n) ++ r.1, w :: r.2)

/-- `piece[:n]`. -/
def Piece.take (n : ℕ) : Piece → Piece
  | ordinary t => ordinary (t.take n)
  | token t => token (t.take n)

/-- The text that the loop appends for a visible piece. -/
def maskPiece (s : OutputTokenSplit) (n : ℕ) : Piece → List Char × List (List Char)
  | .ordinary t => maskItems s.shape n (scan s.scanPattern.matcher t)
  | .token t => (t, [])

/-- The loop over the pieces, with `n` originals so far and `room` characters of
the text to come. -/
def maskPieces (s : OutputTokenSplit) : ℕ → ℕ → List Piece → List Char × List (List Char)
  | _, _, [] => ([], [])
  | n, room, p :: rest =>
    let visible := p.take room
    let m := maskPiece s n visible
    if room ≤ visible.text.length then m
    else
      let r := maskPieces s (n + m.2.length) (room - visible.text.length) rest
      (m.1 ++ r.1, m.2 ++ r.2)

/-- `_OutputTokenSplitResult`. -/
structure OutputTokenSplitResult where
  text : List Char
  shape : MarkerShape
  originals : List (List Char)

/-- `_OutputTokenSplit.split`. Writing a placeholder's number fails beyond the
interpreter's limit. -/
def OutputTokenSplit.split (s : OutputTokenSplit) (text : List Char) (ids : List ℕ) :
    Except PyError (Option OutputTokenSplitResult) :=
  if s.words = [] then .ok none
  else if occurs s.scanPattern.matcher text = false then .ok none
  else if s.shape.lead <:+: text then .ok none
  else if ¬ text <+: Piece.join (pieces s ids) then .ok none
  else
    let m := maskPieces s 0 text.length (pieces s ids)
    if 10 ^ maxStrDigits < m.2.length then
      .error (.valueError "Exceeds the limit (4300 digits) for integer string conversion")
    else if m.2 = [] then .ok none
    else .ok (some ⟨m.1, s.shape, m.2⟩)

/-- The substitution of `_restore` over the items of a scan: every placeholder by
its original. -/
def restoreItems (k : MarkerShape) (originals : List (List Char)) :
    List (Item Char) → Except PyError (List Char)
  | [] => .ok []
  | .lit c :: rest => (restoreItems k originals rest).map (c :: ·)
  | .hit w :: rest =>
    match pyInt (k.digitsOf w) with
    | .error e => .error e
    | .ok i =>
      match originals[i]? with
      | none => .error .indexError
      | some t => (restoreItems k originals rest).map (t ++ ·)

/-- `self._marker.sub(lambda match: self._originals[int(match.group(1))], value)`. -/
def OutputTokenSplitResult.substitute (r : OutputTokenSplitResult) (value : List Char) :
    Except PyError (List Char) :=
  restoreItems r.shape r.originals (scan r.shape.matcher value)

/-! ### The visible pieces -/

/-- The pieces the loop visits, cut at the end of the text. -/
def cut : ℕ → List Piece → List Piece
  | _, [] => []
  | room, p :: rest =>
    let visible := p.take room
    if room ≤ visible.text.length then [visible]
    else visible :: cut (room - visible.text.length) rest

@[simp] theorem Piece.text_take (n : ℕ) (p : Piece) : (p.take n).text = p.text.take n := by
  cases p <;> rfl

@[simp] theorem Piece.isToken_take (n : ℕ) (p : Piece) : (p.take n).isToken = p.isToken := by
  cases p <;> rfl

/-- **The visible pieces spell the text.** -/
theorem join_cut (room : ℕ) (ps : List Piece) :
    Piece.join (cut room ps) = (Piece.join ps).take room := by
  induction ps generalizing room with
  | nil => simp [cut]
  | cons p ps ih =>
    rw [cut, Piece.join_cons, List.take_append, Piece.text_take]
    -- the loop stops at the piece that fills the room
    split
    · next h =>
      rw [List.length_take] at h
      rw [Piece.join_cons, Piece.join_nil, List.append_nil, Piece.text_take,
        show room - p.text.length = 0 by omega, List.take_zero, List.append_nil]
    · next h =>
      rw [List.length_take] at h ⊢
      have hroom : min room p.text.length = p.text.length := by omega
      rw [Piece.join_cons, ih, Piece.text_take, hroom]

/-- Cutting keeps the kinds of the pieces it visits. -/
theorem isToken_cut (room : ℕ) (ps : List Piece) :
    (cut room ps).map Piece.isToken <+: ps.map Piece.isToken := by
  induction ps generalizing room with
  | nil => exact List.prefix_refl _
  | cons p ps ih =>
    rw [cut]
    split
    · rw [List.map_cons, List.map_cons, Piece.isToken_take, List.map_nil]
      exact List.cons_prefix_cons.mpr ⟨rfl, List.nil_prefix⟩
    · rw [List.map_cons, List.map_cons, Piece.isToken_take]
      exact List.cons_prefix_cons.mpr ⟨rfl, ih _⟩

theorem alternating_cut {ps : List Piece} (h : Piece.Alternating ps) (room : ℕ) :
    Piece.Alternating (cut room ps) := by
  -- `Alternating` looks at the kinds alone, and `cut` keeps a prefix of them
  have hmap : (ps.map Piece.isToken).IsChain fun a b => a = true ∨ b = true :=
    (List.isChain_map Piece.isToken).mpr h
  have hcut := List.IsChain.prefix hmap (isToken_cut room ps)
  exact (List.isChain_map Piece.isToken).mp hcut

/-! ### Atoms -/

/-- What the masked text consists of. -/
inductive Atom
  /-- A character of a run. -/
  | plain (c : Char)
  /-- A masked word and its number. -/
  | masked (i : ℕ) (w : List Char)
  /-- A real token's text. -/
  | real (t : List Char)
deriving Repr, DecidableEq

namespace Atom

/-- The text of an atom in the output text. -/
def original : Atom → List Char
  | plain c => [c]
  | masked _ w => w
  | real t => t

/-- The text of an atom in the masked text. -/
def shown (k : MarkerShape) : Atom → List Char
  | plain c => [c]
  | masked i _ => k.render (pyStr i)
  | real t => t

def masked? : Atom → Option (List Char)
  | masked _ w => some w
  | _ => none

def real? : Atom → Option (List Char)
  | real t => some t
  | _ => none

end Atom

/-- The masked words. -/
def originals (as : List Atom) : List (List Char) := as.filterMap Atom.masked?

/-- The real tokens' texts. -/
def reals (as : List Atom) : List (List Char) := as.filterMap Atom.real?

/-- The atoms as they stand in the output text. -/
def originalText (as : List Atom) : List Char := as.flatMap Atom.original

/-- The atoms as they stand in the masked text. -/
def shownText (k : MarkerShape) (as : List Atom) : List Char := as.flatMap (Atom.shown k)

/-- The atoms of a scanned run, numbered from `n`. -/
def itemAtoms : ℕ → List (Item Char) → List Atom
  | _, [] => []
  | n, .lit c :: rest => .plain c :: itemAtoms n rest
  | n, .hit w :: rest => .masked n w :: itemAtoms (n + 1) rest

/-- The atoms of a visible piece. -/
def pieceAtoms (s : OutputTokenSplit) (n : ℕ) : Piece → List Atom
  | .ordinary t => itemAtoms n (scan s.scanPattern.matcher t)
  | .token t => [.real t]

/-- The atoms of visible pieces. -/
def atoms (s : OutputTokenSplit) : ℕ → List Piece → List Atom
  | _, [] => []
  | n, p :: rest => pieceAtoms s n p ++ atoms s (n + (originals (pieceAtoms s n p)).length) rest

section Append

variable (k : MarkerShape)

@[simp] theorem originals_append (a b : List Atom) :
    originals (a ++ b) = originals a ++ originals b := List.filterMap_append

@[simp] theorem reals_append (a b : List Atom) : reals (a ++ b) = reals a ++ reals b :=
  List.filterMap_append

@[simp] theorem originalText_append (a b : List Atom) :
    originalText (a ++ b) = originalText a ++ originalText b := List.flatMap_append

@[simp] theorem shownText_append (a b : List Atom) :
    shownText k (a ++ b) = shownText k a ++ shownText k b := List.flatMap_append

@[simp] theorem shownText_cons (x : Atom) (as : List Atom) :
    shownText k (x :: as) = x.shown k ++ shownText k as := List.flatMap_cons ..

end Append

/-! ### The loop over atoms -/

theorem maskItems_eq (k : MarkerShape) (n : ℕ) (items : List (Item Char)) :
    maskItems k n items = (shownText k (itemAtoms n items), originals (itemAtoms n items)) := by
  induction items generalizing n with
  | nil => rfl
  | cons item items ih =>
    cases item with
    | lit c => rw [maskItems, ih]; rfl
    | hit w => rw [maskItems, ih]; rfl

theorem maskPiece_eq (s : OutputTokenSplit) (n : ℕ) (p : Piece) :
    maskPiece s n p = (shownText s.shape (pieceAtoms s n p), originals (pieceAtoms s n p)) := by
  cases p with
  | ordinary t => exact maskItems_eq _ _ _
  | token t => simp [maskPiece, pieceAtoms, shownText, originals, Atom.shown, Atom.masked?]

/-- **The loop writes the atoms of the visible pieces.** -/
theorem maskPieces_eq (s : OutputTokenSplit) (n room : ℕ) (ps : List Piece) :
    maskPieces s n room ps
      = (shownText s.shape (atoms s n (cut room ps)), originals (atoms s n (cut room ps))) := by
  induction ps generalizing n room with
  | nil => rfl
  | cons p ps ih =>
    -- the loop and `cut` stop at the same piece
    rw [maskPieces, cut]
    dsimp only
    rw [maskPiece_eq]
    split
    · rw [atoms, atoms, List.append_nil]
    · rw [ih, atoms, shownText_append, originals_append]

theorem originalText_itemAtoms (n : ℕ) (items : List (Item Char)) :
    originalText (itemAtoms n items) = items.flatMap Item.text := by
  induction items generalizing n with
  | nil => rfl
  | cons item items ih =>
    cases item with
    | lit c => exact congrArg (c :: ·) (ih n)
    | hit w => exact congrArg (w ++ ·) (ih (n + 1))

/-- The atoms spell the pieces. -/
theorem originalText_atoms (s : OutputTokenSplit) (n : ℕ) (ps : List Piece) :
    originalText (atoms s n ps) = Piece.join ps := by
  induction ps generalizing n with
  | nil => rfl
  | cons p ps ih =>
    rw [atoms, originalText_append, ih, Piece.join_cons]
    refine congrArg (· ++ _) ?_
    cases p with
    | ordinary t => rw [pieceAtoms, originalText_itemAtoms, flatMap_text_scan, Piece.text_ordinary]
    | token t => simp [pieceAtoms, originalText, Atom.original]

theorem originals_itemAtoms (n : ℕ) (items : List (Item Char)) :
    originals (itemAtoms n items) = hits items := by
  induction items generalizing n with
  | nil => rfl
  | cons item items ih =>
    cases item with
    | lit c => exact ih n
    | hit w => exact congrArg (w :: ·) (ih (n + 1))

/-- The words that the scan of a run takes. -/
def Piece.maskedWords (s : OutputTokenSplit) : Piece → List (List Char)
  | ordinary t => hits (scan (longest s.words) t)
  | token _ => []

/-- The text of a real token. -/
def Piece.token? : Piece → Option (List Char)
  | ordinary _ => none
  | token t => some t

/-- **The masked words are the words of the runs.** -/
theorem originals_atoms {s : OutputTokenSplit} (hs : s.words ≠ []) (n : ℕ) (ps : List Piece) :
    originals (atoms s n ps) = ps.flatMap (Piece.maskedWords s) := by
  induction ps generalizing n with
  | nil => rfl
  | cons p ps ih =>
    rw [atoms, originals_append, ih, List.flatMap_cons]
    refine congrArg (· ++ _) ?_
    cases p with
    | ordinary t => rw [pieceAtoms, originals_itemAtoms, s.matcher_scanPattern hs]; rfl
    | token t => rfl

/-- **Real tokens' pieces** are kept as they are. -/
theorem reals_atoms (s : OutputTokenSplit) (n : ℕ) (ps : List Piece) :
    reals (atoms s n ps) = ps.filterMap Piece.token? := by
  -- ordinary text masks words only
  have hitems : ∀ n items, reals (itemAtoms n items) = [] := by
    intro n items
    induction items generalizing n with
    | nil => rfl
    | cons item items ih =>
      cases item with
      | lit c => exact ih n
      | hit w => exact ih (n + 1)
  induction ps generalizing n with
  | nil => rfl
  | cons p ps ih =>
    rw [atoms, reals_append, ih]
    -- a token is kept as it stands
    cases p with
    | ordinary t => rw [pieceAtoms, hitems]; rfl
    | token t => rfl

/-! ### Numbers -/

/-- The masked words are numbered in order, from `n`. -/
def Numbered : ℕ → List Atom → Prop
  | _, [] => True
  | n, .masked i _ :: rest => i = n ∧ Numbered (n + 1) rest
  | n, .plain _ :: rest => Numbered n rest
  | n, .real _ :: rest => Numbered n rest

theorem numbered_append {n : ℕ} {a b : List Atom} :
    Numbered n (a ++ b) ↔ Numbered n a ∧ Numbered (n + (originals a).length) b := by
  induction a generalizing n with
  | nil => exact ⟨fun h => ⟨trivial, h⟩, fun h => h.2⟩
  | cons x a ih =>
    -- only a masked word moves the number on
    cases x with
    | plain c => exact ih
    | real t => exact ih
    | masked i w =>
      show i = n ∧ Numbered (n + 1) (a ++ b) ↔ (i = n ∧ Numbered (n + 1) a) ∧ _
      rw [ih, and_assoc]
      have hlen : n + (originals (.masked i w :: a)).length = n + 1 + (originals a).length := by
        show n + ((originals a).length + 1) = _
        omega
      rw [hlen]

/-- **The atoms are numbered in order.** -/
theorem numbered_atoms (s : OutputTokenSplit) (n : ℕ) (ps : List Piece) :
    Numbered n (atoms s n ps) := by
  -- the words of one piece are numbered in order
  have hitems : ∀ n items, Numbered n (itemAtoms n items) := by
    intro n items
    induction items generalizing n with
    | nil => trivial
    | cons item items ih =>
      cases item with
      | lit c => exact ih n
      | hit w => exact ⟨rfl, ih (n + 1)⟩
  induction ps generalizing n with
  | nil => trivial
  | cons p ps ih =>
    -- the next piece goes on behind the originals of this one
    refine numbered_append.mpr ⟨?_, ih _⟩
    cases p with
    | ordinary t => exact hitems _ _
    | token t => trivial

/-- The cells of an atom: a real token's text is characters like any other. -/
def Atom.cells : Atom → List (Cell ℕ Char)
  | plain c => [.char c]
  | masked i _ => [.label i]
  | real t => t.map .char

/-- The cells of the masked text. -/
def cells (as : List Atom) : List (Cell ℕ Char) := as.flatMap Atom.cells

theorem write_cells_shown (k : MarkerShape) (as : List Atom) :
    Cell.write (fun i => k.render (pyStr i)) (cells as) = shownText k as := by
  induction as with
  | nil => rfl
  | cons x as ih =>
    rw [cells, List.flatMap_cons, Cell.write_append, shownText_cons]
    refine congrArg₂ (· ++ ·) ?_ ih
    cases x with
    | plain c => rfl
    | masked i w => exact List.append_nil _
    | real t => exact Cell.write_chars _ t

/-- Number `i` stands for the `i`-th original. -/
theorem write_cells_original {as : List Atom} {n : ℕ} (before : List (List Char))
    (hn : before.length = n) (h : Numbered n as) :
    Cell.write (fun i => ((before ++ originals as)[i]?).getD []) (cells as) = originalText as
      ∧ ∀ i ∈ Cell.labels (cells as), i < (before ++ originals as).length := by
  induction as generalizing n before with
  | nil => exact ⟨rfl, fun i hi => absurd hi List.not_mem_nil⟩
  | cons x as ih =>
    -- `before` holds the words masked so far, so number `n` is the next one
    cases x with
    | plain c => exact ⟨congrArg (c :: ·) (ih before hn h).1, (ih before hn h).2⟩
    | real t =>
      obtain ⟨htext, hlabels⟩ := ih before hn h
      refine ⟨?_, ?_⟩
      · show Cell.write _ (t.map .char ++ cells as) = t ++ originalText as
        rw [Cell.write_append, Cell.write_chars]
        exact congrArg (t ++ ·) htext
      · show ∀ i ∈ Cell.labels (t.map .char ++ cells as), _
        rw [Cell.labels_append, Cell.labels_chars, List.nil_append]
        exact hlabels
    | masked i w =>
      obtain ⟨rfl, h⟩ := h
      -- the word joins the originals that the rest is numbered behind
      have heq : before ++ originals (.masked i w :: as) = (before ++ [w]) ++ originals as := by
        rw [List.append_assoc]
        rfl
      obtain ⟨htext, hlabels⟩ := ih (before ++ [w]) (by simp [hn]) h
      have hget : ((before ++ [w]) ++ originals as)[i]? = some w := by
        rw [List.append_assoc, List.getElem?_append_right hn.le, hn, Nat.sub_self]
        rfl
      rw [heq]
      refine ⟨?_, ?_⟩
      · show Cell.write _ (.label i :: cells as) = w ++ originalText as
        rw [Cell.write_cons, Cell.text, hget, htext]
        rfl
      · intro j hj
        -- this label is that of `w`, the others are in the rest
        obtain rfl | hj := List.mem_cons.mp hj
        · exact (List.getElem?_eq_some_iff.mp hget).1
        · exact hlabels j hj

/-- **Substituting the cells of a masked text** gives its characters back. -/
theorem restoreItems_cells {k : MarkerShape} {originals : List (List Char)}
    {cs : List (Cell ℕ Char)} (hlabels : ∀ i ∈ Cell.labels cs, i < originals.length)
    (hlimit : originals.length ≤ 10 ^ maxStrDigits) :
    restoreItems k originals (cs.map (Cell.item fun i => k.render (pyStr i)))
      = .ok (Cell.write (fun i => (originals[i]?).getD []) cs) := by
  induction cs with
  | nil => rfl
  | cons x cs ih =>
    -- a marker is followed by its number, read back as the label
    cases x with
    | char c =>
      rw [List.map_cons, Cell.item, restoreItems, ih hlabels]
      rfl
    | label i =>
      rw [Cell.labels_label] at hlabels
      -- the label has an original
      have hi := hlabels i (List.mem_cons_self ..)
      rw [List.map_cons, Cell.item, restoreItems, MarkerShape.digitsOf_render,
        pyInt_pyStr (lt_of_lt_of_le hi hlimit), Cell.write_cons, Cell.text]
      dsimp only
      rw [List.getElem?_eq_getElem hi, ih fun j hj => hlabels j (List.mem_cons_of_mem _ hj)]
      rfl

/-! ### Words that are left -/

/-- The characters of a run up to the next masked word or real token. -/
def plainPrefix : List Atom → List Char
  | .plain c :: rest => c :: plainPrefix rest
  | _ => []

theorem plainPrefix_itemAtoms {rest : List Atom} (hrest : plainPrefix rest = []) (n : ℕ)
    (items : List (Item Char)) :
    plainPrefix (itemAtoms n items ++ rest) <+: items.flatMap Item.text := by
  induction items generalizing n with
  | nil => exact hrest ▸ List.nil_prefix
  | cons item items ih =>
    cases item with
    | lit c => exact List.cons_prefix_cons.mpr ⟨rfl, ih n⟩
    | hit w => exact List.nil_prefix

/-- A character of a run is a literal of its scan. -/
theorem exists_lit_of_itemAtoms {n : ℕ} {items : List (Item Char)} {a b : List Atom} {c : Char}
    (h : itemAtoms n items = a ++ .plain c :: b) :
    ∃ p q m, items = p ++ .lit c :: q ∧ b = itemAtoms m q := by
  induction items generalizing n a with
  | nil => exact absurd h (by simp [itemAtoms])
  | cons item items ih =>
    -- the literal that is looked for is the first one, or comes later
    cases item with
    | lit d =>
      cases a with
      | nil =>
        obtain ⟨hd, rfl⟩ := List.cons.inj h
        obtain rfl := Atom.plain.inj hd
        exact ⟨[], items, n, rfl, rfl⟩
      | cons x a =>
        obtain ⟨p, q, m, rfl, hb⟩ := ih (List.cons.inj h).2
        exact ⟨.lit d :: p, q, m, rfl, hb⟩
    | hit w =>
      cases a with
      | nil => exact absurd (List.cons.inj h).1 (by simp)
      | cons x a =>
        obtain ⟨p, q, m, rfl, hb⟩ := ih (List.cons.inj h).2
        exact ⟨.hit w :: p, q, m, rfl, hb⟩

/-- **No word starts at a character that is left**, as far as the run's characters
go on behind it. -/
theorem not_fires_of_plain {s : OutputTokenSplit} (hs : s.words ≠ []) {ps : List Piece}
    (halt : Piece.Alternating ps) {n : ℕ} {a b : List Atom} {c : Char}
    (h : atoms s n ps = a ++ .plain c :: b) :
    fires (longest s.words) (c :: plainPrefix b) = false := by
  induction ps generalizing n a with
  | nil => exact absurd h (by simp [atoms])
  | cons p ps ih =>
    have hps : Piece.Alternating ps := halt.tail
    cases p with
    | token t =>
      cases a with
      | nil => exact absurd (List.cons.inj h).1 (by simp)
      | cons x a => exact ih hps (List.cons.inj h).2
    | ordinary t =>
      rw [atoms] at h
      -- the run is the last piece or a token follows it
      have hstop : ∀ m, plainPrefix (atoms s m ps) = [] := by
        intro m
        cases ps with
        | nil => rfl
        | cons q ps =>
          obtain hp | hq := (List.isChain_cons_cons.mp halt).1
          · exact absurd hp (by simp [Piece.isToken])
          · cases q with
            | ordinary u => exact absurd hq (by simp [Piece.isToken])
            | token u => rfl
      -- the character lies behind the first piece, or in it
      obtain ⟨d, rfl, hd⟩ | ⟨d, hd, hb⟩ := List.append_eq_append_iff.mp h
      · exact ih hps hd
      · cases d with
        | nil =>
          -- the character would open the next piece
          have := hstop (n + (originals (pieceAtoms s n (.ordinary t))).length)
          rw [List.nil_append] at hb
          rw [← hb] at this
          exact absurd this (List.cons_ne_nil _ _)
        | cons x d =>
          obtain ⟨rfl, rfl⟩ := List.cons.inj hb
          obtain ⟨p, q, m, hitems, rfl⟩ := exists_lit_of_itemAtoms hd
          rw [s.matcher_scanPattern hs] at hitems
          have hno := scan_eq_append_lit hitems
          -- a word that starts here would start in the run's text too
          by_contra hf
          refine absurd (fires_longest_mono ?_ (Bool.eq_true_of_not_eq_false hf))
            (Bool.eq_false_iff.mp hno)
          exact List.cons_prefix_cons.mpr ⟨rfl, plainPrefix_itemAtoms (hstop _) m q⟩

/-- Some atom of the given kind meets the `n` characters from position `a` on. -/
def Overlaps (k : MarkerShape) (as : List Atom) (kind : Atom → Prop) (a n : ℕ) : Prop :=
  ∃ before x after, as = before ++ x :: after ∧ kind x
    ∧ (shownText k before).length < a + n
    ∧ a < (shownText k before).length + (x.shown k).length

def Atom.IsPlain (x : Atom) : Prop := ∃ c, x = plain c
def Atom.IsMasked (x : Atom) : Prop := ∃ i w, x = masked i w
def Atom.IsReal (x : Atom) : Prop := ∃ t, x = real t

/-- Characters at the head of the atoms, when nothing else begins in between. -/
theorem exists_block_head {k : MarkerShape} {as : List Atom} {w b : List Char}
    (h : shownText k as = w ++ b)
    (hclear : ∀ before x after, as = before ++ x :: after → ¬ x.IsPlain →
      w.length ≤ (shownText k before).length) :
    ∃ rest, as = w.map .plain ++ rest := by
  induction w generalizing as with
  | nil => exact ⟨as, rfl⟩
  | cons c w ih =>
    -- a character of the word, or an atom that cannot stand inside it
    cases as with
    | nil => exact absurd h (by simp [shownText])
    | cons x as =>
      -- an atom that is no character would begin at position `0`, inside the word
      by_cases hx : x.IsPlain
      · obtain ⟨d, rfl⟩ := hx
        obtain ⟨rfl, htail⟩ := List.cons.inj h
        obtain ⟨rest, rfl⟩ := ih htail fun before y after heq hy => by
          have := hclear (.plain d :: before) y after (by rw [heq]; rfl) hy
          simpa [Atom.shown] using this
        exact ⟨rest, rfl⟩
      · exact absurd (hclear [] x as rfl hx) (by simp [shownText])

/-- **A stretch that meets no masked word and no real token** is a block of
characters. -/
theorem exists_block {k : MarkerShape} {as : List Atom} {a w b : List Char} (hw : w ≠ [])
    (h : shownText k as = a ++ (w ++ b))
    (hclear : ¬ Overlaps k as (fun x => ¬ x.IsPlain) a.length w.length) :
    ∃ before after, as = before ++ (w.map .plain ++ after) := by
  have hpos : 0 < w.length := List.length_pos_of_ne_nil hw
  induction as generalizing a with
  | nil =>
    have hnil := List.append_eq_nil_iff.mp h.symm
    exact absurd (List.append_eq_nil_iff.mp hnil.2).1 hw
  | cons x as ih =>
    -- what the rest meets, the whole meets one atom later
    have hshift : ∀ a' : List Char, (x.shown k).length + a'.length = a.length →
        ¬ Overlaps k as (fun x => ¬ x.IsPlain) a'.length w.length := by
      rintro a' ha' ⟨before, y, after, rfl, hy, hlo, hhi⟩
      refine hclear ⟨x :: before, y, after, rfl, hy, ?_, ?_⟩ <;>
        rw [shownText_cons, List.length_append] <;> omega
    -- the induction removes one atom, and what it shows from `a`
    by_cases hx : x.IsPlain
    · obtain ⟨c, rfl⟩ := hx
      cases a with
      | nil =>
        obtain ⟨rest, hrest⟩ :=
          exists_block_head (k := k) (w := w) h fun before y after heq hy => by
          by_contra hlt
          refine hclear ⟨before, y, after, heq, hy, ?_, ?_⟩
          -- the stretch begins behind `before`
          · simpa using hlt
          · cases before with
            | nil =>
              obtain ⟨rfl, -⟩ := List.cons.inj heq
              exact absurd ⟨c, rfl⟩ hy
            | cons z before =>
              obtain ⟨rfl, -⟩ := List.cons.inj heq
              rw [shownText_cons, List.length_append]
              exact Nat.lt_of_lt_of_le (Nat.one_pos) (by simp [Atom.shown]; omega)
        exact ⟨[], rest, hrest⟩
      | cons d a =>
        obtain ⟨rfl, htail⟩ := List.cons.inj h
        obtain ⟨before, after, rfl⟩ := ih htail (hshift a (by simp [Atom.shown]; omega))
        exact ⟨.plain c :: before, after, rfl⟩
    · -- an atom of another kind lies wholly before the stretch
      have hle : (x.shown k).length ≤ a.length := by
        by_contra hlt
        exact hclear ⟨[], x, as, rfl, hx, by simp [shownText]; omega, by simp [shownText]; omega⟩
      rw [shownText_cons] at h
      obtain ⟨a', rfl⟩ : ∃ a', a = x.shown k ++ a' := by
        obtain ⟨a', ha'⟩ := List.prefix_of_prefix_length_le
          (List.prefix_append (x.shown k) (shownText k as)) ⟨w ++ b, h.symm⟩ hle
        exact ⟨a', ha'.symm⟩
      rw [List.append_assoc, List.append_cancel_left_eq] at h
      obtain ⟨before, after, rfl⟩ := ih h (hshift a' (by rw [List.length_append]))
      exact ⟨x :: before, after, rfl⟩

/-- **A word that is left** in the masked text meets a placeholder or a real
token's piece. -/
theorem overlaps_of_word {s : OutputTokenSplit} (hs : s.words ≠ []) {ps : List Piece}
    (halt : Piece.Alternating ps) {n : ℕ} {a w b : List Char} (hw : w ∈ s.words)
    (h : shownText s.shape (atoms s n ps) = a ++ w ++ b) :
    Overlaps s.shape (atoms s n ps) Atom.IsMasked a.length w.length
      ∨ Overlaps s.shape (atoms s n ps) Atom.IsReal a.length w.length := by
  by_contra hnone
  rw [not_or] at hnone
  have hne := s.ne_nil_of_mem_words hw
  rw [List.append_assoc] at h
  -- a word that meets neither kind lies on characters alone
  obtain ⟨before, after, hblock⟩ := exists_block hne h fun hover => by
    obtain ⟨before, x, after, heq, hx, hlo, hhi⟩ := hover
    cases x with
    | plain c => exact hx ⟨c, rfl⟩
    | masked i v => exact hnone.1 ⟨before, _, after, heq, ⟨i, v, rfl⟩, hlo, hhi⟩
    | real t => exact hnone.2 ⟨before, _, after, heq, ⟨t, rfl⟩, hlo, hhi⟩
  cases w with
  | nil => exact hne rfl
  | cons c w =>
    have hno : fires (longest s.words) (c :: plainPrefix (w.map .plain ++ after)) = false :=
      not_fires_of_plain hs halt hblock
    have hprefix : w <+: plainPrefix (w.map .plain ++ after) := by
      clear hw h hne hnone hblock hno
      induction w with
      | nil => exact List.nil_prefix
      | cons d w ih => exact List.cons_prefix_cons.mpr ⟨rfl, ih⟩
    -- but then the scan of that run takes a word there
    rw [fires_longest hw hne (List.cons_prefix_cons.mpr ⟨rfl, hprefix⟩)] at hno
    exact Bool.noConfusion hno

/-! ### What `split` promises -/

/-- The pieces as far as the text shows them. -/
def visible (s : OutputTokenSplit) (text : List Char) (ids : List ℕ) : List Piece :=
  cut text.length (pieces s ids)

/-- The atoms of the visible pieces. -/
def visibleAtoms (s : OutputTokenSplit) (text : List Char) (ids : List ℕ) : List Atom :=
  atoms s 0 (visible s text ids)

/-- When `split` returns a result. -/
theorem split_eq_some_iff {s : OutputTokenSplit} {text : List Char} {ids : List ℕ}
    {r : OutputTokenSplitResult} :
    s.split text ids = .ok (some r) ↔
      s.words ≠ [] ∧ occurs s.scanPattern.matcher text = true ∧ ¬ s.shape.lead <:+: text
        ∧ text <+: Piece.join (pieces s ids)
        ∧ (originals (visibleAtoms s text ids)).length ≤ 10 ^ maxStrDigits
        ∧ originals (visibleAtoms s text ids) ≠ []
        ∧ r = ⟨shownText s.shape (visibleAtoms s text ids), s.shape,
            originals (visibleAtoms s text ids)⟩ := by
  unfold OutputTokenSplit.split
  rw [maskPieces_eq]
  dsimp only
  show _ ↔ _ ∧ _ ∧ _ ∧ _ ∧ _ ∧ _ ∧ _
  -- each guard of the source is one branch
  split
  · next h => exact ⟨fun hr => by simp at hr, fun hr => absurd h hr.1⟩
  split
  · next h =>
    refine ⟨fun hr => by simp at hr, fun hr => ?_⟩
    rw [hr.2.1] at h
    exact Bool.noConfusion h
  split
  · next h => exact ⟨fun hr => by simp at hr, fun hr => absurd h hr.2.2.1⟩
  split
  · next h => exact ⟨fun hr => by simp at hr, fun hr => absurd hr.2.2.2.1 h⟩
  split
  · next h => exact ⟨fun hr => by simp at hr, fun hr => absurd hr.2.2.2.2.1 (Nat.not_le.mpr h)⟩
  split
  · next h => exact ⟨fun hr => by simp at hr, fun hr => absurd h hr.2.2.2.2.2.1⟩
  · next hs hocc hlead hpre hlimit hne =>
    constructor
    · intro hr
      -- the result is the one that the last branch returns
      obtain rfl := Option.some.inj (Except.ok.inj hr)
      exact ⟨hs, Bool.eq_true_of_not_eq_false hocc, hlead, not_not.mp hpre, Nat.not_lt.mp hlimit,
        hne, rfl⟩
    · rintro ⟨-, -, -, -, -, -, rfl⟩
      rfl

/-- A result masks a text: both are the same cells, written in two ways. -/
structure Masks (r : OutputTokenSplitResult) (text : List Char) (cs : List (Cell ℕ Char)) :
    Prop where
  /-- The masked text has the placeholders for labels. -/
  shown : r.text = Cell.write (fun i => r.shape.render (pyStr i)) cs
  /-- The text has the originals for labels. -/
  original : text = Cell.write (fun i => (r.originals[i]?).getD []) cs
  /-- Every label has an original. -/
  labels_lt : ∀ i ∈ Cell.labels cs, i < r.originals.length
  /-- The labels' numbers can be read back. -/
  limit : r.originals.length ≤ 10 ^ maxStrDigits
  /-- The text does not hold the placeholders' prefix. -/
  no_lead : ¬ r.shape.lead <:+: text
  /-- Numbers are numerals of the placeholders. -/
  numeral : ∀ i, r.shape.IsNumeral (pyStr i)

/-- The originals in place of the placeholders give the text. -/
theorem Masks.substitute_text {r : OutputTokenSplitResult} {text : List Char}
    {cs : List (Cell ℕ Char)} (h : Masks r text cs) : r.substitute r.text = .ok text := by
  have hlead := h.no_lead
  rw [h.original] at hlead
  rw [OutputTokenSplitResult.substitute, h.shown,
    Cell.scan_write (fun i _ => h.numeral i) hlead, restoreItems_cells h.labels_lt h.limit,
    ← h.original]

/-- What `split` promises of a result. -/
structure SplitSpec (s : OutputTokenSplit) (text : List Char) (ids : List ℕ)
    (r : OutputTokenSplitResult) : Prop where
  /-- The text is a prefix of the joined pieces. -/
  aligned : text <+: Piece.join (pieces s ids)
  /-- Putting the originals back gives the text, character for character. -/
  restored : r.substitute r.text = .ok text
  /-- The originals are the leftmost-longest words of the visible runs, in order. -/
  words_masked : r.originals = (visible s text ids).flatMap (Piece.maskedWords s)
  /-- The masked text is the atoms with placeholders for the masked words, which
  spell the text itself. -/
  shown : r.text = shownText s.shape (visibleAtoms s text ids)
    ∧ originalText (visibleAtoms s text ids) = text
  /-- The real tokens' pieces stand in it verbatim and in order. -/
  tokens_kept : reals (visibleAtoms s text ids) = (visible s text ids).filterMap Piece.token?
  /-- A word that is left, and meets no placeholder, meets a real token's piece. -/
  words_left : ∀ a w b, w ∈ s.words → r.text = a ++ w ++ b →
    ¬ Overlaps s.shape (visibleAtoms s text ids) Atom.IsMasked a.length w.length →
    Overlaps s.shape (visibleAtoms s text ids) Atom.IsReal a.length w.length

/-- The atoms spell the text. -/
theorem originalText_visibleAtoms {s : OutputTokenSplit} {text : List Char} {ids : List ℕ}
    (h : text <+: Piece.join (pieces s ids)) : originalText (visibleAtoms s text ids) = text := by
  rw [visibleAtoms, originalText_atoms, visible, join_cut]
  exact (List.prefix_iff_eq_take.mp h).symm

/-- **A result of `split` masks the text.** -/
theorem masks_of_split {s : OutputTokenSplit} {text : List Char} {ids : List ℕ}
    {r : OutputTokenSplitResult} (h : s.split text ids = .ok (some r)) :
    Masks r text (cells (visibleAtoms s text ids)) := by
  obtain ⟨-, -, hlead, hpre, hlimit, -, rfl⟩ := split_eq_some_iff.mp h
  obtain ⟨hwrite, hlabels⟩ := write_cells_original [] rfl (numbered_atoms s 0 (visible s text ids))
  exact {
    shown := (write_cells_shown s.shape _).symm
    original := ((originalText_visibleAtoms hpre).symm.trans hwrite.symm)
    labels_lt := hlabels
    limit := hlimit
    no_lead := hlead
    numeral := s.isNumeral_pyStr }

/-- **The split masks what was spelled with ordinary tokens**, and nothing else. -/
theorem split_spec (s : OutputTokenSplit) (text : List Char) (ids : List ℕ)
    (r : OutputTokenSplitResult) (h : s.split text ids = .ok (some r)) :
    SplitSpec s text ids r := by
  have hmasks := masks_of_split h
  obtain ⟨hs, -, -, hpre, -, -, rfl⟩ := split_eq_some_iff.mp h
  have halt : Piece.Alternating (visible s text ids) := alternating_cut (alternating_pieces s ids) _
  exact {
    -- one clause of the specification each
    aligned := hpre
    restored := hmasks.substitute_text
    words_masked := originals_atoms hs 0 _
    shown := ⟨rfl, originalText_visibleAtoms hpre⟩
    tokens_kept := reals_atoms s 0 _
    words_left := fun a w b hw hr hmasked =>
      (overlaps_of_word hs halt hw hr).resolve_left hmasked }

theorem visibleAtoms_quoted :
    visibleAtoms dsmlSplit "｜DSML｜｜DSML｜".toList quotedIds
      = [.masked 0 "｜DSML｜".toList, .real "｜DSML｜".toList] := by
  have hvisible : visible dsmlSplit "｜DSML｜｜DSML｜".toList quotedIds
      = [.ordinary "｜DSML｜".toList, .token "｜DSML｜".toList] := by decide
  rw [visibleAtoms, hvisible, atoms, pieceAtoms, dsmlSplit.matcher_scanPattern (by decide)]
  decide

/-- Their split: the quote is masked, the real token behind it kept. -/
def quotedResult : OutputTokenSplitResult :=
  ⟨dsmlSplit.shape.render (pyStr 0) ++ ("｜DSML｜".toList ++ []), dsmlSplit.shape,
    ["｜DSML｜".toList]⟩

theorem split_quoted :
    dsmlSplit.split "｜DSML｜｜DSML｜".toList quotedIds = .ok (some quotedResult) := by
  refine split_eq_some_iff.mpr ?_
  rw [visibleAtoms_quoted]
  refine ⟨by decide, ?_, by decide, by decide, Nat.one_le_pow _ _ (by decide), by decide, rfl⟩
  rw [dsmlSplit.matcher_scanPattern (by decide)]
  decide

/-- The split of a quoted and a real token. -/
theorem split_spec_quoted : SplitSpec dsmlSplit "｜DSML｜｜DSML｜".toList quotedIds quotedResult :=
  split_spec _ _ _ _ split_quoted

end OutputSplit
end Dsv41Overlay
