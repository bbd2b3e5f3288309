import Mathlib.Data.List.Dedup
import Dsv41Overlay.Guard.Encode
import Dsv41Overlay.Lib.PyModule

/-!
# Marking an encoder

The guard renders through a private copy of the encoder module. `markedEncoding` executes the
module and rewrites the values of its names; `checkEncoderSource` looks at the source before
and refuses what the rewriting would miss: a control token written in a function or a class,
or a default argument that is no literal.

The two do not agree. The rewriting goes into strings, lists, tuples and the values of
dictionaries. A dictionary's keys, a set, the attributes of a class and the names that begin
with two underscores stay as the execution left them, and the check accepts a control token
in each. `allMarked_iff` says that these are the only places. Everywhere else a string becomes
what the scan of its control tokens makes of it (`strings_markedEncoding`).
-/

namespace Dsv41Overlay
namespace Guard

open Tokens Py

/-! ### The check -/

/-- `NEEDLES`. -/
def needles : List (List Char) :=
  ["｜".toList, "<|".toList, "<think>".toList, "</think>".toList, "<dsml:".toList,
    "</dsml:".toList]

/-- `bearing`, of a node that is no docstring. -/
def bearing : Expr → Bool
  | .const _ (.str s) => needles.any fun needle => decide (needle <:+: s)
  | _ => false

/-- What one node adds to `problems`. -/
def nodeProblems (n : Node) : List ℕ :=
  (match n with
    | .expr e => if bearing e then [e.line] else []
    | .functionDef _ => []) ++
  (n.defaults.filter fun d => !d.isConstant).map Expr.line

def isLambda : Expr → Bool
  | .lambda .. => true
  | _ => false

/-- The nodes of the scopes of a statement: those of an assignment are the `lambda`s in it. -/
def scopeNodes : Stmt → List Node
  | .assign _ value => ((value.walk.filter isLambda).flatMap Expr.walk).map .expr
  | s => s.walk

/-- The nodes the check visits; the head of `tree.body` may be a docstring. -/
def checkedNodes (head : Bool) : List Stmt → List Node
  | [] => []
  | s :: rest => (if head && s.isDocstring then [] else scopeNodes s) ++ checkedNodes false rest

def problems (body : List Stmt) : List ℕ := (checkedNodes true body).flatMap nodeProblems

/-- `check_encoder_source`; the error is the text of the `RuntimeError`. -/
def checkEncoderSource (body : List Stmt) : Except String Unit :=
  -- `sorted(set(problems))`
  let lines := problems body
  if lines.isEmpty then .ok ()
  else .error ("DeepSeek V4.1 encoder has control tokens outside module constants (lines " ++
    toString (lines.dedup.mergeSort fun m n => decide (m ≤ n)) ++
    "); the control-token guard cannot mark them")

/-! ### The marking -/

section MarkValue

variable (scanPattern : Regex Char) (shape : MarkerShape)

mutual

/-- `_mark_value`. -/
def markValue (tokens : List (List Char)) : Value → List (List Char) × Value
  | .const (.str s) =>
    let r := mark scanPattern shape tokens s
    (r.1, .const (.str r.2))
  -- the keys stay
  | .dict keys values =>
    let r := markValues tokens values
    (r.1, .dict keys r.2)
  | .list elts =>
    let r := markValues tokens elts
    (r.1, .list r.2)
  | .tuple elts =>
    let r := markValues tokens elts
    (r.1, .tuple r.2)
  -- sets, functions and classes among them
  | value => (tokens, value)

@[inherit_doc markValue]
def markValues (tokens : List (List Char)) : List Value → List (List Char) × List Value
  | [] => (tokens, [])
  | v :: vs =>
    let r := markValue tokens v
    let rs := markValues r.1 vs
    (rs.1, r.2 :: rs.2)

end

/-- `name.startswith("__")`. -/
def isDunder (name : Name) : Bool := "__".toList.isPrefixOf name

/-- The loop of `_marked_encoding` over the names of the executed module. -/
def markNames (tokens : List (List Char)) : Namespace → List (List Char) × Namespace
  | [] => (tokens, [])
  | (name, value) :: rest =>
    let r := if isDunder name then (tokens, value) else markValue scanPattern shape tokens value
    let rs := markNames r.1 rest
    (rs.1, (name, r.2) :: rs.2)

end MarkValue

/-- `_marked_encoding`: the control tokens by their markers' numbers, and the names of the
private copy. -/
def markedEncoding (ids : AddedVocab) (shape : MarkerShape) (globals : Namespace) :
    List (List Char) × Namespace :=
  markNames (triePattern ids.words) shape [] globals

/-! ### What the marking is for -/

section Marked

variable (ids : AddedVocab) (shape : MarkerShape)

/-- The string holds a control token. -/
def HoldsToken (s : List Char) : Prop := ∃ w ∈ ids.words, w <:+: s

instance (s : List Char) : Decidable (HoldsToken ids s) :=
  inferInstanceAs (Decidable (∃ w ∈ ids.words, w <:+: s))

/-- `s` is the marked form of `t`: the same text with a marker for every control token, and
none left in between. -/
def MarkedForm (tokens : List (List Char)) (t s : List Char) : Prop :=
  ∃ x : Interleaving (Fin tokens.length) Char, (∀ u ∈ x.texts, ¬HoldsToken ids u) ∧
    t = (x.flatten fun i => tokens.get i) ∧ s = x.flatten fun i => shape.render (pyStr i.val)

/-- What the marking writes for an item of a scan: a control token becomes its marker. -/
def markerItem (tokens : List (List Char)) : Item Char → List Char
  | .lit c => [c]
  | .hit w => shape.render (pyStr (tokens.idxOf w))

/-- The text with a marker for every control token that the scan finds. -/
def markedText (tokens : List (List Char)) (t : List Char) : List Char :=
  (scan (longest ids.words) t).flatMap (markerItem shape tokens)

/-- Every string that can be read out of the private copy is the marked form of what the
module has in its place. -/
def AllMarked (globals : Namespace) : Prop :=
  let r := markedEncoding ids shape globals
  List.Forall₂ (MarkedForm ids shape r.1) globals.strings r.2.strings

end Marked

mutual

/-- The strings that the marking of a value leaves as they are, default arguments apart. -/
def keptStrings : Value → List (List Char)
  | .const _ => []
  | .list elts => keptStringsAll elts
  | .tuple elts => keptStringsAll elts
  | .set elts => Value.stringsAll elts
  | .dict keys values => Value.stringsAll keys ++ keptStringsAll values
  | .function _ => []
  | .cls _ attrs => Value.stringsAll attrs
  | .module _ => []

@[inherit_doc keptStrings]
def keptStringsAll : List Value → List (List Char)
  | [] => []
  | v :: vs => keptStrings v ++ keptStringsAll vs

end

/-- Those of a module: also what its names that begin with two underscores hold. -/
def keptIn (globals : Namespace) : List (List Char) :=
  globals.flatMap fun b => if isDunder b.1 then b.2.strings else keptStrings b.2

/-- The string a node is, if it is one. -/
def nodeStrings : Node → List (List Char)
  | .expr (.const _ (.str s)) => [s]
  | _ => []

/-- The strings written in the functions, classes and `lambda`s of a module, without their
docstrings. -/
def writtenStrings (body : List Stmt) : List (List Char) :=
  (checkedNodes true body).flatMap nodeStrings

/-! ### What the check accepts -/

section Accepted

variable {ids : AddedVocab} {body : List Stmt}

theorem nodeProblems_of_accepted (h : checkEncoderSource body = .ok ()) {n : Node}
    (hn : n ∈ checkedNodes true body) : nodeProblems n = [] := by
  unfold checkEncoderSource at h
  dsimp only at h
  split at h
  · next hempty =>
    have hnil : (checkedNodes true body).flatMap nodeProblems = [] := List.isEmpty_iff.mp hempty
    exact List.flatMap_eq_nil_iff.mp hnil n hn
  · cases h

/-- Every added token contains a needle, so a string without one holds no control token. -/
theorem not_holdsToken_of_not_bearing
    (hneedles : ∀ w ∈ ids.words, ∃ needle ∈ needles, needle <:+: w) {line : ℕ} {s : List Char}
    (h : bearing (.const line (.str s)) = false) : ¬HoldsToken ids s := by
  rintro ⟨w, hw, hws⟩
  obtain ⟨needle, hneedle, hin⟩ := hneedles w hw
  have hnot := List.any_eq_false.mp h needle hneedle
  exact hnot (decide_eq_true (hin.trans hws))

theorem not_bearing_of_problems {e : Expr} (h : nodeProblems (.expr e) = []) :
    bearing e = false := by
  have hfirst := (List.append_eq_nil_iff.mp h).1
  by_contra hbearing
  rw [Bool.not_eq_false] at hbearing
  dsimp only at hfirst
  rw [if_pos hbearing] at hfirst
  exact absurd hfirst (List.cons_ne_nil _ _)

/-- A default that passes is a literal without a control token. -/
theorem literal_of_problems (hneedles : ∀ w ∈ ids.words, ∃ needle ∈ needles, needle <:+: w)
    {n : Node} (hn : nodeProblems n = []) {d : Expr} (hd : d ∈ n.defaults)
    (hproblems : nodeProblems (.expr d) = []) : d.Literal fun s => ¬HoldsToken ids s := by
  have hlines := List.map_eq_nil_iff.mp (List.append_eq_nil_iff.mp hn).2
  have hconstant := List.filter_eq_nil_iff.mp hlines d hd
  cases d with
  | const line c =>
    cases c with
    | str s => exact not_holdsToken_of_not_bearing hneedles (not_bearing_of_problems hproblems)
    | int | bool | none | other => trivial
  | name | list | tuple | set | dict | add | lambda | other => exact absurd rfl hconstant

theorem exists_scope {head : Bool} {n : Node} (h : n ∈ Stmt.walks head body) :
    ∃ s, n ∈ s.walk ∧ scopeNodes s ⊆ checkedNodes head body := by
  induction body generalizing head with
  | nil => exact absurd h List.not_mem_nil
  | cons s rest ih =>
    rcases List.mem_append.mp h with h | h
    · split at h
      · exact absurd h List.not_mem_nil
      · next hdoc =>
        refine ⟨s, h, ?_⟩
        rw [checkedNodes, if_neg hdoc]
        exact List.subset_append_left _ _
    · obtain ⟨s', hn, hsub⟩ := ih h
      exact ⟨s', hn, List.subset_append_of_subset_right _ hsub⟩

/-- The nodes with default arguments are checked, with these. -/
theorem checked_of_mem_defaults {s : Stmt} {n : Node} (hn : n ∈ s.walk) {d : Expr}
    (hd : d ∈ n.defaults) : n ∈ scopeNodes s ∧ .expr d ∈ scopeNodes s := by
  cases s with
  | assign targets value =>
    -- only a `lambda` has defaults
    obtain ⟨e, he, rfl⟩ := List.mem_map.mp hn
    have hlambda : isLambda e = true := by
      cases e with
      | lambda => rfl
      | const | name | list | tuple | set | dict | add | other => exact absurd hd List.not_mem_nil
    have hscope : e ∈ value.walk.filter isLambda := List.mem_filter.mpr ⟨he, hlambda⟩
    have hsub : ∀ e' ∈ e.walk, .expr e' ∈ scopeNodes (.assign targets value) := by
      intro e' he'
      exact List.mem_map_of_mem (List.mem_flatMap.mpr ⟨e, hscope, he'⟩)
    exact ⟨hsub e e.mem_walk, hsub d (e.defaults_subset hd)⟩
  | expr | imports | functionDef | classDef | other => exact ⟨hn, Stmt.expr_mem_walk _ hn hd⟩

/-- **What the check is for**: every default argument of an accepted module is a literal
without a control token, -/
theorem accepted_literal (hneedles : ∀ w ∈ ids.words, ∃ needle ∈ needles, needle <:+: w)
    (h : checkEncoderSource body = .ok ()) :
    ∀ n ∈ Stmt.walks true body, ∀ d ∈ n.defaults, d.Literal fun s => ¬HoldsToken ids s := by
  intro n hn d hd
  -- the node and its default are both in a scope of the check
  obtain ⟨s, hs, hsub⟩ := exists_scope hn
  obtain ⟨hnode, hdefault⟩ := checked_of_mem_defaults hs hd
  exact literal_of_problems hneedles (nodeProblems_of_accepted h (hsub hnode)) hd
    (nodeProblems_of_accepted h (hsub hdefault))

/-- and so is every string in its functions, classes and `lambda`s. -/
theorem accepted_written (hneedles : ∀ w ∈ ids.words, ∃ needle ∈ needles, needle <:+: w)
    (h : checkEncoderSource body = .ok ()) : ∀ s ∈ writtenStrings body, ¬HoldsToken ids s := by
  intro s hs
  obtain ⟨n, hn, hs⟩ := List.mem_flatMap.mp hs
  have hproblems := nodeProblems_of_accepted h hn
  unfold nodeStrings at hs
  split at hs
  · obtain rfl := List.mem_singleton.mp hs
    exact not_holdsToken_of_not_bearing hneedles (not_bearing_of_problems hproblems)
  · exact absurd hs List.not_mem_nil

end Accepted

/-! ### Marked forms -/

section MarkedForm

variable {ids : AddedVocab} {shape : MarkerShape} {tokens final : List (List Char)}
  {t s : List Char}

/-- Tokens that come later change no marker. -/
theorem MarkedForm.mono (h : MarkedForm ids shape tokens t s) (hfinal : tokens <+: final) :
    MarkedForm ids shape final t s := by
  obtain ⟨x, htexts, ht, hs⟩ := h
  have hget : ∀ i : Fin tokens.length,
      final.get (Fin.castLE hfinal.length_le i) = tokens.get i := by
    intro i
    obtain ⟨rest, rfl⟩ := hfinal
    exact List.getElem_append_left i.isLt
  refine ⟨x.mapLabels (Fin.castLE hfinal.length_le), ?_, ?_, ?_⟩
  · have hsame : (x.mapLabels (Fin.castLE hfinal.length_le)).texts = x.texts := by
      simp [Interleaving.texts, Interleaving.mapLabels]
    rw [hsame]
    exact htexts
  · rw [ht, Interleaving.flatten_mapLabels]
    exact congrArg (fun f => x.flatten f) (funext fun i => (hget i).symm)
  · rw [hs, Interleaving.flatten_mapLabels]
    rfl

/-- A string without a control token is its own marked form. -/
theorem markedForm_self (h : ¬HoldsToken ids t) : MarkedForm ids shape tokens t t := by
  refine ⟨⟨t, []⟩, ?_, (List.append_nil t).symm, (List.append_nil t).symm⟩
  intro u hu
  obtain rfl := List.mem_singleton.mp hu
  exact h

/-- **One with a control token is not**: it has fewer opening characters than its marked
form. -/
theorem not_markedForm_self (hopening : ∀ w ∈ ids.words, shape.opening ∉ w)
    (htokens : ∀ w ∈ tokens, w ∈ ids.words) (h : HoldsToken ids t) :
    ¬MarkedForm ids shape tokens t t := by
  rintro ⟨x, htexts, ht, hs⟩
  cases htail : x.tail with
  | nil =>
    have hhead : t = x.head := by
      rw [ht, Interleaving.flatten, htail]
      exact List.append_nil _
    exact htexts x.head List.mem_cons_self (hhead ▸ h)
  | cons p tail =>
    -- the labels count nothing as tokens, and at least one as markers
    have hplain : (x.labels.map fun i => (tokens.get i).count shape.opening).sum = 0 := by
      apply List.sum_eq_zero
      intro n hn
      obtain ⟨i, -, rfl⟩ := List.mem_map.mp hn
      exact List.count_eq_zero_of_not_mem (hopening _ (htokens _ (List.get_mem _ _)))
    have hmarker : 0 < (x.labels.map fun i : Fin tokens.length =>
        (shape.render (pyStr i.val)).count shape.opening).sum := by
      rw [Interleaving.labels, htail, List.map_cons, List.map_cons, List.sum_cons]
      have hpos : 0 < (shape.render (pyStr p.1.val)).count shape.opening :=
        List.count_pos_iff.mpr List.mem_cons_self
      omega
    have hcount := congrArg (List.count shape.opening) (ht.symm.trans hs)
    rw [Interleaving.count_flatten, Interleaving.count_flatten, hplain] at hcount
    omega

theorem markedForm_self_iff (hopening : ∀ w ∈ ids.words, shape.opening ∉ w)
    (htokens : ∀ w ∈ tokens, w ∈ ids.words) :
    MarkedForm ids shape tokens t t ↔ ¬HoldsToken ids t :=
  ⟨fun hself h => not_markedForm_self hopening htokens h hself, markedForm_self⟩

variable (shape) in
/-- **`_mark` gives the marked form.** -/
theorem mark_spec (hids : ids.words ≠ []) (hne : [] ∉ ids.words)
    (htokens : ∀ w ∈ tokens, w ∈ ids.words) (t : List Char) :
    tokens <+: (mark (triePattern ids.words) shape tokens t).1 ∧
    (∀ w ∈ (mark (triePattern ids.words) shape tokens t).1, w ∈ ids.words) ∧
    MarkedForm ids shape (mark (triePattern ids.words) shape tokens t).1 t
      (mark (triePattern ids.words) shape tokens t).2 := by
  have hmatcher : (triePattern ids.words).matcher = longest ids.words := matcher_triePattern hids
  obtain ⟨hold, hnew, x, htexts, hmarked, htext⟩ :=
    exists_render_markItems shape (scan (longest ids.words) t) tokens
  rw [mark, hmatcher]
  refine ⟨hold, ?_, x, ?_, ?_, hmarked⟩
  · intro w hw
    rcases hnew w hw with hw | hw
    · exact htokens w hw
    · exact mem_words_of_hit hw
  · -- between the hits the scan leaves no word
    intro u hu
    rw [htexts] at hu
    obtain ⟨p, q, hpq⟩ := exists_lits_of_mem_texts hu
    rintro ⟨w, hw, hwu⟩
    exact not_infix_of_lits hpq hw (fun h => hne (h ▸ hw)) hwu
  · rw [← htext, flatMap_text_scan]

/-- A token has the number of its first place, also among tokens that come later. -/
theorem markerFor_eq {w : List Char} (hfinal : (markerFor shape tokens w).1 <+: final) :
    w ∈ final ∧ (markerFor shape tokens w).2 = shape.render (pyStr (final.idxOf w)) := by
  obtain ⟨rest, rfl⟩ := hfinal
  unfold markerFor
  split
  · next hmem =>
    exact ⟨List.mem_append_left _ hmem, by rw [List.idxOf_append_of_mem hmem]⟩
  · next hnot =>
    have hmem : w ∈ tokens ++ [w] := List.mem_append_right _ List.mem_cons_self
    refine ⟨List.mem_append_left _ hmem, ?_⟩
    rw [List.idxOf_append_of_mem hmem, List.idxOf_append_of_notMem hnot, List.idxOf_cons_self,
      Nat.add_zero]

/-- **The substitution, item by item**; later tokens change nothing. -/
theorem markItems_eq {items : List (Item Char)}
    (hfinal : (markItems shape tokens items).1 <+: final) :
    (markItems shape tokens items).2 = items.flatMap (markerItem shape final) ∧
      ∀ w, .hit w ∈ items → w ∈ final := by
  induction items generalizing tokens with
  | nil => exact ⟨rfl, fun w hw => absurd hw List.not_mem_nil⟩
  | cons item items ih =>
    cases item with
    | lit c =>
      obtain ⟨htext, hhits⟩ := ih hfinal
      refine ⟨congrArg (c :: ·) htext, fun w hw => hhits w ?_⟩
      exact (List.mem_cons.mp hw).resolve_left fun heq => by cases heq
    | hit v =>
      -- the tokens marked so far come first
      have hold : (markerFor shape tokens v).1 <+: final :=
        (exists_render_markItems shape items _).1.trans hfinal
      obtain ⟨hv, hmarker⟩ := markerFor_eq hold
      obtain ⟨htext, hhits⟩ := ih hfinal
      refine ⟨?_, fun w hw => ?_⟩
      · rw [List.flatMap_cons, ← htext]
        exact congrArg (· ++ _) hmarker
      · rcases List.mem_cons.mp hw with hw | hw
        · cases hw
          exact hv
        · exact hhits w hw

/-- The scan of a string without a control token has no hit. -/
theorem scan_of_clean (h : ¬HoldsToken ids t) : scan (longest ids.words) t = t.map .lit := by
  have hno : occurs (longest ids.words) t = false := by
    rw [← Bool.not_eq_true, occurs_longest_iff]
    exact h
  exact scan_eq_map_lit_iff.mpr fun a b hab _ => not_fires_of_not_occurs hno hab

theorem markedText_of_clean (h : ¬HoldsToken ids t) : markedText ids shape tokens t = t := by
  rw [markedText, scan_of_clean h, List.flatMap_map]
  exact List.flatMap_singleton' t

theorem not_hit_of_clean (h : ¬HoldsToken ids t) (w : List Char) :
    .hit w ∉ scan (longest ids.words) t := by
  rw [scan_of_clean h, List.mem_map]
  rintro ⟨c, -, heq⟩
  cases heq

/-! #### Values -/

theorem forall₂_append_iff {α β : Type*} {R : α → β → Prop} {as as' : List α} {bs bs' : List β}
    (h : as.length = bs.length) :
    List.Forall₂ R (as ++ as') (bs ++ bs') ↔ List.Forall₂ R as bs ∧ List.Forall₂ R as' bs' := by
  induction as generalizing bs with
  | nil =>
    obtain rfl := List.length_eq_zero_iff.mp h.symm
    exact ⟨fun hrest => ⟨.nil, hrest⟩, fun hboth => hboth.2⟩
  | cons a as ih =>
    obtain ⟨b, bs, rfl⟩ := List.exists_cons_of_length_eq_add_one h.symm
    rw [List.cons_append, List.cons_append, List.forall₂_cons, List.forall₂_cons,
      ih (Nat.succ.inj h), and_assoc]

/-- What the marking of a value is: it keeps the tokens marked before, and every string is
the marked form of the one in its place, if none that the marking keeps holds a token. The
strings are then what the scan of each one makes of it. -/
structure Marks (ids : AddedVocab) (shape : MarkerShape) (tokens after : List (List Char))
    (before new kept : List (List Char)) : Prop where
  old : tokens <+: after
  words : ∀ w ∈ after, w ∈ ids.words
  length : before.length = new.length
  marked : ∀ final, after <+: final → (∀ w ∈ final, w ∈ ids.words) →
    (List.Forall₂ (MarkedForm ids shape final) before new ↔ ∀ s ∈ kept, ¬HoldsToken ids s)
  text : ∀ final, after <+: final → (∀ s ∈ kept, ¬HoldsToken ids s) →
    new = before.map (markedText ids shape final) ∧
      ∀ t ∈ before, ∀ w, .hit w ∈ scan (longest ids.words) t → w ∈ final

/-- Strings without a token are what the scan makes of them. -/
theorem text_of_clean {strings : List (List Char)} (h : ∀ s ∈ strings, ¬HoldsToken ids s) :
    strings = strings.map (markedText ids shape final) ∧
      ∀ t ∈ strings, ∀ w, .hit w ∈ scan (longest ids.words) t → w ∈ final := by
  constructor
  · refine (List.map_id strings).symm.trans (List.map_congr_left fun s hs => ?_)
    exact (markedText_of_clean (h s hs)).symm
  · exact fun t ht w hw => absurd hw (not_hit_of_clean (h t ht) w)

/-- Strings that the marking leaves alone. -/
theorem Marks.refl (hopening : ∀ w ∈ ids.words, shape.opening ∉ w)
    (htokens : ∀ w ∈ tokens, w ∈ ids.words) (strings : List (List Char)) :
    Marks ids shape tokens tokens strings strings strings where
  old := List.prefix_refl _
  words := htokens
  length := rfl
  marked := by
    intro final _ hfinal
    rw [List.forall₂_same]
    exact forall₂_congr fun s _ => markedForm_self_iff hopening hfinal
  text _ _ hkept := text_of_clean hkept

/-- Strings without a token, which need not be counted as kept. -/
theorem Marks.clean {strings : List (List Char)} (htokens : ∀ w ∈ tokens, w ∈ ids.words)
    (h : ∀ s ∈ strings, ¬HoldsToken ids s) :
    Marks ids shape tokens tokens strings strings [] where
  old := List.prefix_refl _
  words := htokens
  length := rfl
  marked := by
    intro final _ _
    refine iff_of_true ?_ (fun s hs => absurd hs List.not_mem_nil)
    exact List.forall₂_same.mpr fun s hs => markedForm_self (h s hs)
  text _ _ _ := text_of_clean h

/-- One marking after another. -/
theorem Marks.append {after₁ after₂ before₁ before₂ new₁ new₂ kept₁ kept₂ : List (List Char)}
    (h₁ : Marks ids shape tokens after₁ before₁ new₁ kept₁)
    (h₂ : Marks ids shape after₁ after₂ before₂ new₂ kept₂) :
    Marks ids shape tokens after₂ (before₁ ++ before₂) (new₁ ++ new₂) (kept₁ ++ kept₂) where
  old := h₁.old.trans h₂.old
  words := h₂.words
  length := by rw [List.length_append, List.length_append, h₁.length, h₂.length]
  marked := by
    intro final hfinal hwords
    rw [forall₂_append_iff h₁.length, h₁.marked final (h₂.old.trans hfinal) hwords,
      h₂.marked final hfinal hwords, List.forall_mem_append]
  text := by
    intro final hfinal hkept
    obtain ⟨hkept₁, hkept₂⟩ := List.forall_mem_append.mp hkept
    obtain ⟨htext₁, hhits₁⟩ := h₁.text final (h₂.old.trans hfinal) hkept₁
    obtain ⟨htext₂, hhits₂⟩ := h₂.text final hfinal hkept₂
    refine ⟨?_, List.forall_mem_append.mpr ⟨hhits₁, hhits₂⟩⟩
    rw [List.map_append, ← htext₁, ← htext₂]

/-- A string that the marking rewrites. -/
theorem marks_mark (hids : ids.words ≠ []) (hne : [] ∉ ids.words)
    (htokens : ∀ w ∈ tokens, w ∈ ids.words) (t : List Char) :
    Marks ids shape tokens (mark (triePattern ids.words) shape tokens t).1 [t]
      [(mark (triePattern ids.words) shape tokens t).2] [] := by
  obtain ⟨hold, hwords, hmarked⟩ := mark_spec shape hids hne htokens t
  refine ⟨hold, hwords, rfl, ?_, ?_⟩
  · intro final hfinal _
    refine iff_of_true ?_ (fun s hs => absurd hs List.not_mem_nil)
    exact .cons (hmarked.mono hfinal) .nil
  · intro final hfinal _
    rw [mark, matcher_triePattern hids] at hfinal ⊢
    obtain ⟨htext, hhits⟩ := markItems_eq hfinal
    refine ⟨congrArg (fun s => [s]) htext, fun s hs => ?_⟩
    obtain rfl := List.mem_singleton.mp hs
    exact hhits

mutual

/-- **Marking a value** marks all but what `keptStrings` lists, if no default argument in it
holds a token. -/
theorem marks_markValue (hids : ids.words ≠ []) (hne : [] ∉ ids.words)
    (hopening : ∀ w ∈ ids.words, shape.opening ∉ w) {tokens : List (List Char)}
    (htokens : ∀ w ∈ tokens, w ∈ ids.words)
    (v : Value) (hdefaults : ∀ s ∈ v.defaults, ¬HoldsToken ids s) :
    Marks ids shape tokens (markValue (triePattern ids.words) shape tokens v).1 v.strings
      (markValue (triePattern ids.words) shape tokens v).2.strings (keptStrings v) := by
  cases v with
  | const c =>
    cases c with
    | str t => exact marks_mark hids hne htokens t
    | int | bool | none | other =>
      exact .clean htokens fun s hs => absurd hs List.not_mem_nil
  | list elts => exact marks_markValues hids hne hopening htokens elts hdefaults
  | tuple elts => exact marks_markValues hids hne hopening htokens elts hdefaults
  | set elts => exact .refl hopening htokens _
  | dict keys values =>
    -- the keys are kept, the values are marked
    have hvalues := (List.forall_mem_append.mp hdefaults).2
    exact (Marks.refl hopening htokens (Value.stringsAll keys)).append
      (marks_markValues hids hne hopening htokens values hvalues)
  -- here the check comes in
  | function defaults => exact .clean htokens hdefaults
  | cls names attrs => exact .refl hopening htokens _
  | module name => exact .clean htokens fun s hs => absurd hs List.not_mem_nil

theorem marks_markValues (hids : ids.words ≠ []) (hne : [] ∉ ids.words)
    (hopening : ∀ w ∈ ids.words, shape.opening ∉ w) {tokens : List (List Char)}
    (htokens : ∀ w ∈ tokens, w ∈ ids.words)
    (vs : List Value) (hdefaults : ∀ s ∈ Value.defaultsAll vs, ¬HoldsToken ids s) :
    Marks ids shape tokens (markValues (triePattern ids.words) shape tokens vs).1
      (Value.stringsAll vs)
      (Value.stringsAll (markValues (triePattern ids.words) shape tokens vs).2)
      (keptStringsAll vs) := by
  cases vs with
  | nil => exact .clean htokens fun s hs => absurd hs List.not_mem_nil
  | cons v vs =>
    obtain ⟨hhead, htail⟩ := List.forall_mem_append.mp hdefaults
    have hv := marks_markValue hids hne hopening htokens v hhead
    exact hv.append (marks_markValues hids hne hopening hv.words vs htail)

end

/-- Marking the names of a module. -/
theorem marks_markNames (hids : ids.words ≠ []) (hne : [] ∉ ids.words)
    (hopening : ∀ w ∈ ids.words, shape.opening ∉ w) (htokens : ∀ w ∈ tokens, w ∈ ids.words)
    {globals : Namespace} (hdefaults : ∀ s ∈ globals.defaults, ¬HoldsToken ids s) :
    Marks ids shape tokens (markNames (triePattern ids.words) shape tokens globals).1
      globals.strings (markNames (triePattern ids.words) shape tokens globals).2.strings
      (keptIn globals) := by
  induction globals generalizing tokens with
  | nil => exact .clean htokens fun s hs => absurd hs List.not_mem_nil
  | cons b rest ih =>
    obtain ⟨name, value⟩ := b
    obtain ⟨hvalue, hrest⟩ := List.forall_mem_append.mp hdefaults
    have hfirst : Marks ids shape tokens
        (if isDunder name then (tokens, value)
          else markValue (triePattern ids.words) shape tokens value).1 value.strings
        (if isDunder name then (tokens, value)
          else markValue (triePattern ids.words) shape tokens value).2.strings
        (if isDunder name then value.strings else keptStrings value) := by
      by_cases hname : isDunder name = true
      · rw [if_pos hname, if_pos hname]
        exact .refl hopening htokens _
      · rw [if_neg hname, if_neg hname]
        exact marks_markValue hids hne hopening htokens value hvalue
    exact hfirst.append (ih hfirst.words hrest)

/-- **What is marked**: everything that can be read, unless a string that the marking keeps
holds a control token. -/
theorem allMarked_iff (hids : ids.words ≠ []) (hne : [] ∉ ids.words)
    (hopening : ∀ w ∈ ids.words, shape.opening ∉ w) {globals : Namespace}
    (hdefaults : ∀ s ∈ globals.defaults, ¬HoldsToken ids s) :
    AllMarked ids shape globals ↔ ∀ s ∈ keptIn globals, ¬HoldsToken ids s := by
  have hnone : ∀ w ∈ ([] : List (List Char)), w ∈ ids.words := fun w hw =>
    absurd hw List.not_mem_nil
  have hmarks := marks_markNames hids hne hopening hnone hdefaults
  exact hmarks.marked _ (List.prefix_refl _) hmarks.words

/-- What can be read then is what the scan makes of each string of the module. -/
theorem strings_markedEncoding (hids : ids.words ≠ []) (hne : [] ∉ ids.words)
    (hopening : ∀ w ∈ ids.words, shape.opening ∉ w) {globals : Namespace}
    (hdefaults : ∀ s ∈ globals.defaults, ¬HoldsToken ids s)
    (hkept : ∀ s ∈ keptIn globals, ¬HoldsToken ids s) :
    (markedEncoding ids shape globals).2.strings =
        globals.strings.map (markedText ids shape (markedEncoding ids shape globals).1) ∧
      ∀ t ∈ globals.strings, ∀ w, .hit w ∈ scan (longest ids.words) t →
        w ∈ (markedEncoding ids shape globals).1 := by
  have hnone : ∀ w ∈ ([] : List (List Char)), w ∈ ids.words := fun w hw =>
    absurd hw List.not_mem_nil
  have hmarks := marks_markNames hids hne hopening hnone hdefaults
  exact hmarks.text _ (List.prefix_refl _) hkept

end MarkedForm

end Guard
end Dsv41Overlay
