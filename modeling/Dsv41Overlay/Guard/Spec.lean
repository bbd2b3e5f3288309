import Mathlib.Algebra.Order.BigOperators.Group.List
import Dsv41Overlay.Guard.Encode

/-!
# What the guard returns

A render is forged when one of its texts holds a complete marker, and dirty when
one holds an added-token string. `encode_spec` gives the result in each case.

For a render that is not forged, the marked render scans into its own markers
and texts (`splitHits_marked`), so `encode` works on the render itself. For a
forged one the split takes the forged marker out of the text. The characters
U+E000 of the texts that are left are then fewer than those of the prompt, so
the rebuilt prompt differs, whatever number the forged marker has; if the number
is unknown or no number at all, `encode` has failed before.
-/

namespace Dsv41Overlay
namespace Guard

open Tokens

namespace ControlTokenGuard

variable {g : ControlTokenGuard}

/-! ### Renders -/

/-- Some text holds a complete marker. -/
def Forged (x : g.Render) : Prop :=
  ∃ t ∈ x.texts, ∃ a digits b, g.shape.IsNumeral digits ∧ t = a ++ g.shape.render digits ++ b

/-- Some text holds an added-token string. -/
def Dirty (x : g.Render) : Prop := ∃ t ∈ x.texts, ∃ w ∈ g.ids.words, w <:+: t

/-- A text without U+E000 holds no marker. -/
theorem not_forged_of_not_mem {x : g.Render} (h : ∀ t ∈ x.texts, markerOpen ∉ t) : ¬ Forged x := by
  rintro ⟨t, ht, a, digits, b, -, rfl⟩
  refine h _ ht (List.mem_append_left _ (List.mem_append_right _ ?_))
  exact List.mem_append_left _ (List.mem_append_left _ (List.mem_cons_self ..))

theorem words_ne_nil : g.ids.words ≠ [] := by
  rw [AddedVocab.words, Ne, List.map_eq_nil_iff]
  exact g.ids_ne_nil

theorem matcher_scanPattern : g.scanPattern.matcher = longest g.ids.words :=
  Tokens.matcher_triePattern words_ne_nil

theorem get_mem_words (i : Fin g.tokens.length) : g.tokens.get i ∈ g.ids.words :=
  g.tokens_mem _ (List.get_mem _ _)

/-- The template's tokens have ids. -/
theorem lookup_get (i : Fin g.tokens.length) : g.ids.lookup (g.tokens.get i) = some (idOf i) := by
  obtain ⟨p, hp, heq⟩ := List.mem_map.mp (get_mem_words i)
  have hne : g.ids.lookup (g.tokens.get i) ≠ none := by
    intro hnone
    rw [List.lookup_eq_none_iff] at hnone
    have := hnone p hp
    rw [heq, bne_self_eq_false] at this
    exact Bool.noConfusion this
  obtain ⟨id, hid⟩ := Option.ne_none_iff_exists'.mp hne
  rw [idOf, hid, Option.getD_some]

theorem mem_of_lookup {v : AddedVocab} {w : List Char} {id : ℕ} (h : v.lookup w = some id) :
    (w, id) ∈ v := by
  obtain ⟨a, b, rfl, -⟩ := List.lookup_eq_some_iff.mp h
  exact List.mem_append_right _ (List.mem_cons_self ..)

/-- The id of a template token is an added token's. -/
theorem hasId_idOf (i : Fin g.tokens.length) : g.ids.hasId (idOf i) = true :=
  decide_eq_true (List.mem_map_of_mem (mem_of_lookup (lookup_get i)))

theorem isNumeral_pyStr (n : ℕ) : g.shape.IsNumeral (pyStr n) :=
  ⟨pyStr_ne_nil n, fun _ hc => isDecimal_of_mem_pyStr hc⟩

/-- A text holds a complete marker when the pattern matches in it. -/
theorem exists_marker_iff {t : List Char} :
    (∃ a digits b, g.shape.IsNumeral digits ∧ t = a ++ g.shape.render digits ++ b)
      ↔ occurs g.shape.matcher t = true := by
  rw [occurs_iff]
  constructor
  · rintro ⟨a, digits, b, hd, rfl⟩
    refine ⟨a, g.shape.render digits ++ b, List.append_assoc _ _ _, ?_⟩
    rw [MarkerShape.matcher_eq_some_iff.mpr ⟨digits, b, hd, rfl, rfl⟩]
    rfl
  · rintro ⟨a, s, rfl, hs⟩
    obtain ⟨n, hn⟩ := Option.isSome_iff_exists.mp hs
    -- a match is a marker, whatever number it has
    obtain ⟨digits, b, hd, rfl, -⟩ := MarkerShape.matcher_eq_some_iff.mp hn
    exact ⟨a, digits, b, hd, (List.append_assoc _ _ _).symm⟩

/-- `any(self._scan.search(text) for text in texts)`. -/
theorem dirty_iff (x : g.Render) :
    x.texts.any (occurs g.scanPattern.matcher) = true ↔ Dirty x := by
  rw [List.any_eq_true, matcher_scanPattern]
  exact exists_congr fun t => and_congr_right fun _ => occurs_longest_iff

/-! ### Reading the marked render -/

/-- **The split of the marked render** is the render itself. -/
theorem splitHits_marked {x : g.Render} (h : ¬ Forged x) :
    splitHits (scan g.markerPattern.matcher (marked x)) = x.mapLabels fun i => g.marker i.val := by
  -- a text that is not forged scans into characters
  have hplain : ∀ t ∈ x.texts, scan g.shape.matcher t = t.map .lit := by
    intro t ht
    have hno : occurs g.shape.matcher t = false := by
      rw [← Bool.not_eq_true, ← exists_marker_iff]
      exact fun hm => h ⟨t, ht, hm⟩
    exact scan_eq_map_lit_iff.mpr fun a b hab _ => not_fires_of_not_occurs hno hab
  have hscan := MarkerShape.scan_flatten_of_plain x (fun i _ => isNumeral_pyStr i.val) hplain
  show splitHits (scan g.shape.matcher (x.flatten fun i => g.shape.render (pyStr i.val))) = _
  rw [hscan, splitHits_items]
  rfl

/-- The guard's markers are read back as their numbers. -/
theorem readIndices_markers (tail : List (Fin g.tokens.length × List Char)) :
    readIndices g.shape (tail.map fun p => (g.marker p.1.val, p.2))
      = .ok (tail.map fun p => (p.1.val, p.2)) := by
  induction tail with
  | nil => rfl
  | cons p tail ih =>
    have hlt : p.1.val < 10 ^ maxStrDigits := lt_of_lt_of_le p.1.isLt g.tokens_length
    rw [List.map_cons, readIndices, marker, MarkerShape.digitsOf_render, pyInt_pyStr hlt, ih]
    rfl

/-- Reading a number fails with a `ValueError` only. -/
theorem pyInt_error {s : List Char} {e : PyError} (h : pyInt s = .error e) :
    ∃ msg, e = .valueError msg := by
  unfold pyInt at h
  split at h
  · exact ⟨_, (Except.error.inj h).symm⟩
  · exact ⟨_, (Except.error.inj h).symm⟩
  · split at h
    · exact ⟨_, (Except.error.inj h).symm⟩
    · exact nomatch h

theorem readIndices_error {pieces : List (List Char × List Char)} {e : PyError}
    (h : readIndices g.shape pieces = .error e) : ∃ msg, e = .valueError msg := by
  induction pieces with
  | nil => exact nomatch h
  | cons p pieces ih =>
    rw [readIndices] at h
    split at h
    · next e' he =>
      obtain rfl := Except.error.inj h
      exact pyInt_error he
    · split at h
      · next e' he =>
        obtain rfl := Except.error.inj h
        exact ih he
      · exact nomatch h

/-- Reading the numbers keeps the texts. -/
theorem readIndices_texts {pieces : List (List Char × List Char)} {indices : List (ℕ × List Char)}
    (h : readIndices g.shape pieces = .ok indices) :
    indices.map Prod.snd = pieces.map Prod.snd := by
  induction pieces generalizing indices with
  | nil =>
    obtain rfl := Except.ok.inj h
    rfl
  | cons p pieces ih =>
    rw [readIndices] at h
    split at h
    · exact nomatch h
    · split at h
      · exact nomatch h
      · next rest hrest =>
        obtain rfl := Except.ok.inj h
        rw [List.map_cons, List.map_cons, ih hrest]

/-! ### Encoding the segments -/

theorem nextEncoded_filter (tokenizer : Tokenizer) (text : List Char) (texts : List (List Char)) :
    nextEncoded text
        (((text :: texts).filter fun t => !t.isEmpty).map tokenizer.baseEncode)
      = .ok (textIds tokenizer text,
          (texts.filter fun t => !t.isEmpty).map tokenizer.baseEncode) := by
  unfold nextEncoded textIds
  cases htext : text.isEmpty with
  | true => rw [List.filter_cons_of_neg (by simp [htext])]; rfl
  | false => rw [List.filter_cons_of_pos (by simp [htext])]; rfl

/-- **The segments of a render**: each text meets its own encoding. -/
theorem encodeSegments_eq (tokenizer : Tokenizer) (x : g.Render) :
    encodeSegments g.ids tokenizer (x.mapLabels g.tokens.get) = .ok (segmentIds tokenizer x) := by
  -- an empty text takes no encoding out of the batch, and has put none into it
  have hloop : ∀ tail : List (Fin g.tokens.length × List Char),
      segmentsLoop g.ids (tail.map fun p => (g.tokens.get p.1, p.2))
          (((tail.map Prod.snd).filter fun t => !t.isEmpty).map tokenizer.baseEncode)
        = .ok (tail.flatMap fun p => idOf p.1 :: textIds tokenizer p.2) := by
    intro tail
    induction tail with
    | nil => rfl
    | cons p tail ih =>
      rw [List.map_cons, segmentsLoop, lookup_get, List.map_cons]
      dsimp only
      rw [nextEncoded_filter]
      dsimp only
      rw [ih, List.flatMap_cons]
  unfold encodeSegments
  have htexts : (x.mapLabels g.tokens.get).texts = x.head :: x.tail.map Prod.snd := by
    simp [Interleaving.texts, Interleaving.mapLabels]
  rw [htexts]
  dsimp only [Interleaving.mapLabels]
  rw [nextEncoded_filter]
  dsimp only
  rw [hloop]
  rfl

/-- **Control tokens stay the template's.** When the base vocabulary never gives
an added token's id, the added ids of a segment-wise result are the template's,
in order. -/
theorem filter_segmentIds {tokenizer : Tokenizer}
    (hbase : ∀ text, ∀ id ∈ tokenizer.baseEncode text, g.ids.hasId id = false) (x : g.Render) :
    (segmentIds tokenizer x).filter g.ids.hasId = templateIds x := by
  have htext : ∀ text, (textIds tokenizer text).filter g.ids.hasId = [] := by
    intro text
    rw [List.filter_eq_nil_iff]
    intro id hid
    unfold textIds at hid
    split at hid
    · exact absurd hid List.not_mem_nil
    · rw [hbase text id hid]
      exact Bool.false_ne_true
  -- the filter keeps one id for each label and nothing of a text
  rw [segmentIds, List.filter_append, htext, List.nil_append, templateIds, Interleaving.labels]
  generalize x.tail = tail
  induction tail with
  | nil => rfl
  | cons p tail ih =>
    rw [List.flatMap_cons, List.cons_append,
      List.filter_cons_of_pos (hasId_idOf p.1), List.filter_append, htext, List.nil_append, ih]
    rfl

/-! ### Forged renders -/

/-- **A forged marker costs a text its opening character.** The texts between the
markers of a forged render hold fewer of them than the texts of the render. -/
theorem count_texts_lt {x : g.Render} (h : Forged x) :
    ((splitHits (scan g.markerPattern.matcher (marked x))).texts.map (List.count markerOpen)).sum
      < (x.texts.map (List.count markerOpen)).sum := by
  have hle : ∀ t : List Char,
      (scan g.shape.matcher t).count (.lit markerOpen) ≤ t.count markerOpen := by
    intro t
    have := count_lit_le markerOpen (scan g.shape.matcher t)
    rwa [flatMap_text_scan] at this
  -- the texts of the split hold the opening characters that the scan leaves
  have hcount : ((splitHits (scan g.markerPattern.matcher (marked x))).texts.map
        (List.count markerOpen)).sum
      = (x.texts.map fun t => (scan g.shape.matcher t).count (.lit markerOpen)).sum := by
    rw [count_texts_splitHits]
    exact MarkerShape.count_lit_scan_flatten markerOpen x fun i _ => isNumeral_pyStr i.val
  rw [hcount]
  refine List.sum_lt_sum _ _ (fun t _ => hle t) ?_
  obtain ⟨t, ht, a, digits, b, hd, htext⟩ := h
  refine ⟨t, ht, ?_⟩
  -- the forged marker is a hit of its text, and it holds the opening character
  obtain ⟨w, hw⟩ : ∃ w, .hit w ∈ scan g.shape.matcher t := by
    rw [List.append_assoc] at htext
    refine exists_hit_of_fires (MarkerShape.matcher_bounded _) htext (fires_iff.mpr ?_)
    refine ⟨(g.shape.render digits).length - 1, ?_⟩
    rw [MarkerShape.matcher_eq_some_iff.mpr ⟨digits, b, hd, rfl, rfl⟩,
      Nat.sub_add_cancel (List.length_pos_of_ne_nil (MarkerShape.render_ne_nil _))]
  have hopen : markerOpen ∈ w := by
    obtain ⟨digits', -, rfl⟩ := MarkerShape.exists_render_of_hit hw
    exact List.mem_append_left _ (List.mem_append_left _ (List.mem_cons_self ..))
  have := count_lit_lt markerOpen hw hopen
  rwa [flatMap_text_scan] at this

/-- Strings of added tokens hold no opening character. -/
theorem count_flatten_tokens {ι : Type*} {f : ι → List Char} {x : Interleaving ι Char}
    (h : ∀ i ∈ x.labels, markerOpen ∉ f i) :
    (x.flatten f).count markerOpen = (x.texts.map (List.count markerOpen)).sum := by
  have hlabels : (x.labels.map fun i => (f i).count markerOpen).sum = 0 := by
    refine List.sum_eq_zero fun n hn => ?_
    obtain ⟨i, hi, rfl⟩ := List.mem_map.mp hn
    exact List.count_eq_zero_of_not_mem (h i hi)
  rw [Interleaving.count_flatten, hlabels, Nat.add_zero]

variable {tokenizer : Tokenizer} {kwargs : Kwargs}

/-- **A forged render is refused.** -/
theorem encode_of_forged (hwords : ∀ w ∈ g.ids.words, markerOpen ∉ w) {x : g.Render}
    (h : Forged x) :
    ∃ msg, g.encode tokenizer (prompt x) (marked x) kwargs = .error (.valueError msg) := by
  unfold encode
  dsimp only
  cases hread : readIndices g.shape
      (splitHits (scan g.markerPattern.matcher (marked x))).tail with
  | error e =>
    obtain ⟨msg, rfl⟩ := readIndices_error hread
    exact ⟨msg, rfl⟩
  | ok indices =>
    dsimp only
    -- a forged marker with an unknown number
    split
    · exact ⟨_, rfl⟩
    · -- the prompt holds an opening character that the rebuilt text has lost
      rw [if_pos]
      · exact ⟨_, rfl⟩
      intro heq
      have hcount := congrArg (List.count markerOpen) heq
      have htexts : (Interleaving.mk
          (splitHits (scan g.markerPattern.matcher (marked x))).head
          (indices.map fun p => (g.tokens.getD p.1 [], p.2))).texts
          = (splitHits (scan g.markerPattern.matcher (marked x))).texts := by
        simp [Interleaving.texts, ← readIndices_texts hread]
      -- the tokens count nothing on either side
      rw [prompt, count_flatten_tokens, count_flatten_tokens, htexts] at hcount
      · exact absurd hcount (count_texts_lt h).ne
      · exact fun i _ => hwords _ (get_mem_words i)
      · intro w hw
        obtain ⟨p, hp, rfl⟩ := List.mem_map.mp hw
        obtain ⟨q, -, rfl⟩ := List.mem_map.mp hp
        show markerOpen ∉ g.tokens.getD q.1 []
        rw [List.getD_eq_getElem?_getD]
        cases hq : g.tokens[q.1]? with
        | none => exact List.not_mem_nil
        | some t => exact hwords t (g.tokens_mem t (List.mem_of_getElem? hq))

/-! ### The result of `encode` -/

/-- For a render that is not forged, `encode` works on the render itself. -/
theorem encode_of_not_forged {x : g.Render} (h : ¬ Forged x) :
    g.encode tokenizer (prompt x) (marked x) kwargs =
      if kwargs.tokenize.getD true then
        if !x.texts.any (occurs g.scanPattern.matcher) then
          .ok (.ids (tokenizer.encode (prompt x) kwargs.options))
        else .ok (.ids (truncate tokenizer (segmentIds tokenizer x) kwargs.options))
      else if x.texts.any (occurs g.scanPattern.matcher) then .ok (.ids (segmentIds tokenizer x))
      else .ok (.prompt (prompt x)) := by
  have htokens : (Interleaving.mk x.head
      ((x.tail.map fun p => (p.1.val, p.2)).map fun p => (g.tokens.getD p.1 [], p.2)))
      = x.mapLabels g.tokens.get := by
    simp [Interleaving.mapLabels, List.getD_eq_getElem?_getD]
  -- a marker of the template has a number below `len(self._tokens)`
  have hknown : ((x.tail.map fun p => (p.1.val, p.2)).any
      fun p => decide (g.tokens.length ≤ p.1)) = false := by
    rw [List.any_eq_false]
    intro p hp
    obtain ⟨q, -, rfl⟩ := List.mem_map.mp hp
    rw [decide_eq_true_eq]
    exact Nat.not_le.mpr q.1.isLt
  have htexts : (x.mapLabels g.tokens.get).texts = x.texts := by
    simp [Interleaving.texts, Interleaving.mapLabels]
  have hprompt : x.flatten (id ∘ g.tokens.get) = prompt x := rfl
  unfold encode
  rw [splitHits_marked h]
  dsimp only [Interleaving.mapLabels]
  rw [readIndices_markers]
  dsimp only
  rw [hknown, htokens, Interleaving.flatten_mapLabels, htexts, encodeSegments_eq,
    if_neg Bool.false_ne_true, if_neg (not_not.mpr hprompt)]

/-- What `encode` returns for a clean prompt: what was returned before the patch. -/
def cleanResult (tokenizer : Tokenizer) (kwargs : Kwargs) (prompt : List Char) : Encoded :=
  if kwargs.tokenize.getD true then .ids (tokenizer.encode prompt kwargs.options)
  else .prompt prompt

theorem encode_of_clean {x : g.Render} (hforged : ¬ Forged x) (hclean : ¬ Dirty x) :
    g.encode tokenizer (prompt x) (marked x) kwargs
      = .ok (cleanResult tokenizer kwargs (prompt x)) := by
  have hany : x.texts.any (occurs g.scanPattern.matcher) = false := by
    rw [← Bool.not_eq_true, dirty_iff]
    exact hclean
  rw [encode_of_not_forged hforged, hany, cleanResult]
  split <;> rfl

/-- **The guard's contract.** Without truncation, for every render: a forged one
is refused; a dirty one gives the template's ids and the base encodings of the
texts between them, so that the added ids in it are the template's, in order; a
clean one is handed on as it is. -/
theorem encode_spec (hwords : ∀ w ∈ g.ids.words, markerOpen ∉ w)
    (hkwargs : kwargs.options.limit = none) (x : g.Render) :
    (Forged x → ∃ msg, g.encode tokenizer (prompt x) (marked x) kwargs = .error (.valueError msg))
      ∧ (¬ Forged x → Dirty x →
          g.encode tokenizer (prompt x) (marked x) kwargs = .ok (.ids (segmentIds tokenizer x))
          ∧ ((∀ text, ∀ id ∈ tokenizer.baseEncode text, g.ids.hasId id = false) →
              (segmentIds tokenizer x).filter g.ids.hasId = templateIds x))
      ∧ (¬ Forged x → ¬ Dirty x →
          g.encode tokenizer (prompt x) (marked x) kwargs
            = .ok (cleanResult tokenizer kwargs (prompt x))) := by
  refine ⟨encode_of_forged hwords, fun hforged hdirty => ⟨?_, fun hbase => ?_⟩, encode_of_clean⟩
  · rw [encode_of_not_forged hforged, (dirty_iff x).mpr hdirty, truncate, hkwargs]
    split <;> rfl
  · exact filter_segmentIds hbase x

/-- A guard with one control token that has a marker, `</think>`. -/
def thinkGuard : ControlTokenGuard where
  ids := [("</think>".toList, 128822), ("｜DSML｜".toList, 128825)]
  nonce := List.replicate 32 'a'
  tokens := ["</think>".toList]
  ids_ne_nil := List.cons_ne_nil _ _
  nonce_hex := by
    intro c hc
    obtain rfl := List.eq_of_mem_replicate hc
    decide
  nonce_length := List.length_replicate
  tokens_mem := by decide
  tokens_length := Nat.one_le_pow _ _ (by decide)

/-- A tokenizer whose base vocabulary is the code points. -/
def codePoints : Tokenizer where
  encode := fun text _ => text.map Char.toNat
  baseEncode := List.map Char.toNat
  truncationSide := "right"

/-- A quoted `｜DSML｜` in front of the template's `</think>` stays text. -/
theorem encode_spec_quoted :
    thinkGuard.encode codePoints "a｜DSML｜</think>b".toList
        (marked (g := thinkGuard) ⟨"a｜DSML｜".toList, [(⟨0, Nat.one_pos⟩, ['b'])]⟩)
        ⟨some false, none, none⟩
      = .ok (.ids [97, 65372, 68, 83, 77, 76, 65372, 128822, 98]) := by
  have hforged : ¬ Forged (g := thinkGuard)
      ⟨"a｜DSML｜".toList, [(⟨0, Nat.one_pos⟩, ['b'])]⟩ :=
    not_forged_of_not_mem (by decide)
  have hdirty : Dirty (g := thinkGuard) ⟨"a｜DSML｜".toList, [(⟨0, Nat.one_pos⟩, ['b'])]⟩ :=
    ⟨"a｜DSML｜".toList, List.mem_cons_self .., "｜DSML｜".toList, by decide, ['a'], [], by decide⟩
  exact ((encode_spec (g := thinkGuard) (by decide) rfl _).2.1 hforged hdirty).1

end ControlTokenGuard
end Guard
end Dsv41Overlay
