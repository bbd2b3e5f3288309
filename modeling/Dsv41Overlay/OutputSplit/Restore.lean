import Dsv41Overlay.OutputSplit.Split

/-!
# Restoring what a parse hands back

A parse of the masked text hands back slices of it, with cuts anywhere.
`restore` puts the originals back and gives up when a placeholder's prefix is
still there. It does not look for other parts of a placeholder.

A slice is the tail of a cut placeholder, whole cells, and the head of a cut
placeholder (`exists_shape`). The placeholder's first character occurs nowhere
else in it, so the substitution touches the whole cells only, and the prefix is
left exactly when the head is long enough to hold all of it
(`restoreValue_shape`). So `restore` notices a cut at a value's end behind a whole
prefix, and no other cut (`restore_iff`).
-/

namespace Dsv41Overlay
namespace OutputSplit

open Tokens

/-! ### The code -/

/-- `_restore`. -/
def OutputTokenSplitResult.restoreValue (r : OutputTokenSplitResult) :
    Option (List Char) → Except PyError (Option (List Char))
  | none => .ok none
  | some value =>
    if value.isEmpty then .ok (some value)
    else
      match r.substitute value with
      | .error e => .error e
      | .ok v =>
        if r.shape.lead <:+: v then
          .error (.valueError "a placeholder did not survive the parse")
        else .ok (some v)

/-- The fields of a tool call that `restore` reads and writes. -/
structure FunctionCall (α : Type*) where
  name : Option α
  arguments : Option α
deriving Repr, DecidableEq

def FunctionCall.map {α β : Type*} (f : α → β) (call : FunctionCall α) : FunctionCall β :=
  ⟨call.name.map f, call.arguments.map f⟩

/-- The list of restored names and arguments. -/
def OutputTokenSplitResult.restoreCalls (r : OutputTokenSplitResult) :
    List (FunctionCall (List Char)) → Except PyError (List (FunctionCall (List Char)))
  | [] => pure []
  | call :: rest => do
    let name ← r.restoreValue call.name
    let arguments ← r.restoreValue call.arguments
    let restored ← r.restoreCalls rest
    pure (⟨name, arguments⟩ :: restored)

/-- `restore`: the restored reasoning and content, if any, and the tool calls as
they are afterwards. -/
def OutputTokenSplitResult.restore (r : OutputTokenSplitResult)
    (reasoning content : Option (List Char)) (calls : Option (List (FunctionCall (List Char)))) :
    Except PyError (Option (Option (List Char) × Option (List Char))
      × Option (List (FunctionCall (List Char)))) :=
  let attempt := do
    let restored ← r.restoreCalls (calls.getD [])
    let reasoning ← r.restoreValue reasoning
    let content ← r.restoreValue content
    pure (restored, reasoning, content)
  match attempt with
  | .error (.valueError _) => .ok (none, calls)
  | .error .indexError => .ok (none, calls)
  | .error e => .error e
  | .ok (restored, reasoning, content) =>
    .ok (some (reasoning, content), calls.map fun _ => restored)

/-! ### Slices -/

/-- A contiguous part of a text. -/
structure Slice (text : List Char) where
  start : ℕ
  stop : ℕ
  start_le : start ≤ stop
  stop_le : stop ≤ text.length

/-- The characters of a slice. -/
def Slice.value {text : List Char} (v : Slice text) : List Char :=
  (text.take v.stop).drop v.start

section Cuts

variable (r : OutputTokenSplitResult) (cs : List (Cell ℕ Char)) (v : Slice r.text)

/-- The placeholder of number `i`. -/
abbrev OutputTokenSplitResult.placeholder (i : ℕ) : List Char := r.shape.render (pyStr i)

/-- The original that number `i` stands for. -/
abbrev OutputTokenSplitResult.original (i : ℕ) : List Char := (r.originals[i]?).getD []

/-- The slice is not empty and begins or ends inside a placeholder. -/
def Cut : Prop :=
  v.value ≠ []
    ∧ (Cell.InsideLabel r.placeholder cs v.start ∨ Cell.InsideLabel r.placeholder cs v.stop)

/-- The slice ends inside a placeholder whose whole prefix it holds. -/
def CutBehindPrefix : Prop :=
  ∃ a i b j, cs = a ++ .label i :: b ∧ v.start ≤ (Cell.write r.placeholder a).length
    ∧ r.shape.lead.length ≤ j ∧ j < (r.placeholder i).length
    ∧ v.stop = (Cell.write r.placeholder a).length + j

/-- `out` is the part of the output text that the slice stands for. -/
def Exact (out : List Char) : Prop :=
  (v.value = [] ∧ out = [])
    ∨ ∃ a m b, cs = a ++ (m ++ b) ∧ (Cell.write r.placeholder a).length = v.start
        ∧ (Cell.write r.placeholder (a ++ m)).length = v.stop ∧ out = Cell.write r.original m

end Cuts

variable {r : OutputTokenSplitResult} {text : List Char} {cs : List (Cell ℕ Char)}

/-- A value that is exact was not cut. -/
theorem not_cut_of_exact {v : Slice r.text} {out : List Char} (h : Exact r cs v out) :
    ¬ Cut r cs v := by
  -- both ends of an exact value are borders of cells
  rintro ⟨hne, hcut⟩
  obtain ⟨hnil, -⟩ | ⟨a, m, b, rfl, hstart, hstop, -⟩ := h
  · exact hne hnil
  · rw [← hstart, ← hstop] at hcut
    obtain hcut | hcut := hcut
    · exact Cell.not_insideLabel hcut
    · rw [← List.append_assoc] at hcut
      exact Cell.not_insideLabel hcut

/-- The slice is the tail `s` of a placeholder, the cells `m` and the head `q` of a
placeholder. -/
structure Shape (r : OutputTokenSplitResult) (cs : List (Cell ℕ Char)) (value s : List Char)
    (m : List (Cell ℕ Char)) (q : List Char) : Prop where
  value_eq : value = s ++ (Cell.write r.placeholder m ++ q)
  /-- The cells are some of the text's. -/
  cells : ∃ a b, cs = a ++ (m ++ b)
  /-- The tail does not hold the first character of a placeholder. -/
  tail : r.shape.opening ∉ s
  /-- The head is empty or begins with it. -/
  head : q = [] ∨ ∃ i j, q = (r.placeholder i).take j ∧ 0 < j ∧ j < (r.placeholder i).length

/-- A head begins with the placeholder's first character. -/
theorem Shape.head_eq {value s q : List Char} {m : List (Cell ℕ Char)}
    (h : Shape r cs value s m q) : ∀ c ∈ q.head?, c = r.shape.opening := by
  intro c hc
  obtain rfl | ⟨i, j, rfl, hj, -⟩ := h.head
  · exact absurd hc (by simp)
  · obtain ⟨j, rfl⟩ := Nat.exists_eq_add_of_lt hj
    rw [Nat.zero_add] at hc
    exact (Option.mem_some_iff.mp hc).symm

/-- **What `_restore` does to a slice.** -/
theorem restoreValue_shape (hm : Masks r text cs) {value s q : List Char}
    {m : List (Cell ℕ Char)} (h : Shape r cs value s m q) (hne : value ≠ []) :
    r.restoreValue (some value)
      = if r.shape.lead <:+: q then .error (.valueError "a placeholder did not survive the parse")
        else .ok (some (s ++ (Cell.write r.original m ++ q))) := by
  obtain ⟨a, b, hcs⟩ := h.cells
  -- the cells stand for a part of the text, which does not hold the prefix
  have horiginal : text = Cell.write r.original a ++ (Cell.write r.original m
      ++ Cell.write r.original b) := by
    have := hm.original
    rwa [hcs, Cell.write_append, Cell.write_append] at this
  have hlabels : ∀ i ∈ Cell.labels m, i < r.originals.length := by
    intro i hi
    refine hm.labels_lt i ?_
    rw [hcs, Cell.labels_append, Cell.labels_append]
    exact List.mem_append_right _ (List.mem_append_left _ hi)
  have hlead : ¬ r.shape.lead <:+: Cell.write r.original m := by
    intro hocc
    refine hm.no_lead (hocc.trans ?_)
    rw [horiginal]
    exact ⟨Cell.write r.original a, Cell.write r.original b, List.append_assoc _ _ _⟩
  let front : List (Cell ℕ Char) := s.map .char ++ m
  let all : List (Cell ℕ Char) := front ++ q.map .char
  have hfront : Cell.write r.placeholder front = s ++ Cell.write r.placeholder m := by
    rw [Cell.write_append, Cell.write_chars]
  -- the characters of the tail and the head are cells of their own
  have hscan : scan r.shape.matcher value = all.map (Cell.item r.placeholder) := by
    have hscan_front : scan r.shape.matcher (Cell.write r.placeholder front)
        = front.map (Cell.item r.placeholder) := by
      refine Cell.scan_write (fun i _ => hm.numeral i) (g := r.original) ?_
      rwa [Cell.write_append, Cell.write_chars, MarkerShape.lead_infix_append_left h.tail]
    have hscan_head : scan r.shape.matcher q = q.map .lit := by
      obtain rfl | ⟨i, j, rfl, -, hj⟩ := h.head
      · rfl
      · exact MarkerShape.scan_take_render (hm.numeral i) hj
    -- no placeholder reaches across a first character of one
    have hcut : scan r.shape.matcher (Cell.write r.placeholder front ++ q)
        = scan r.shape.matcher (Cell.write r.placeholder front) ++ scan r.shape.matcher q := by
      refine scan_append (MarkerShape.matcher_bounded _) fun a b _ hb => ?_
      cases hq : q with
      | nil => rw [List.append_nil]
      | cons c q' =>
        obtain rfl : c = r.shape.opening := h.head_eq c (by rw [hq]; rfl)
        exact MarkerShape.matcher_append_opening hb
    rw [h.value_eq, ← List.append_assoc, ← hfront, hcut, hscan_front, hscan_head]
    refine Eq.trans ?_ List.map_append.symm
    rw [List.map_map]
    rfl
  have hlabels_all : ∀ i ∈ Cell.labels all, i < r.originals.length := by
    rw [Cell.labels_append, Cell.labels_append, Cell.labels_chars, Cell.labels_chars,
      List.nil_append, List.append_nil]
    exact hlabels
  have hsub : r.substitute value = .ok (s ++ (Cell.write r.original m ++ q)) := by
    rw [OutputTokenSplitResult.substitute, hscan, restoreItems_cells hlabels_all hm.limit,
      Cell.write_append, Cell.write_append, Cell.write_chars, Cell.write_chars, List.append_assoc]
  have hisEmpty : value.isEmpty = false := by rwa [List.isEmpty_eq_false_iff]
  rw [OutputTokenSplitResult.restoreValue, hisEmpty, if_neg Bool.false_ne_true, hsub]
  -- the prefix can be left in the head only
  refine if_congr ?_ rfl rfl
  exact (MarkerShape.lead_infix_append_left h.tail).trans
    (MarkerShape.lead_infix_append_right hlead h.head_eq)

/-- The head holds the whole prefix when it is long enough. -/
theorem lead_infix_take_render {k : MarkerShape} {digits : List Char} {j : ℕ} :
    k.lead <:+: (k.render digits).take j ↔ k.lead.length ≤ j := by
  constructor
  -- a prefix that long does not fit into less
  · intro h
    have hlen := h.length_le
    rw [List.length_take] at hlen
    exact hlen.trans (Nat.min_le_left _ _)
  · intro h
    have hpre : k.lead <+: k.render digits := by
      rw [MarkerShape.render, List.append_assoc]
      exact List.prefix_append _ _
    exact (List.prefix_take_iff.mpr ⟨hpre, h⟩).isInfix

/-- Behind a position inside a placeholder stands a tail of it. -/
theorem opening_not_mem_drop {k : MarkerShape} {digits : List Char} (hd : k.IsNumeral digits)
    {j : ℕ} (hj : 0 < j) : k.opening ∉ (k.render digits).drop j := by
  obtain ⟨j, rfl⟩ := Nat.exists_eq_add_of_lt hj
  rw [Nat.zero_add, ← List.drop_tail]
  exact fun h => MarkerShape.opening_not_mem_tail hd (List.mem_of_mem_drop h)

/-- A slice is not longer than its text allows. -/
theorem Slice.value_eq {text : List Char} (v : Slice text) :
    v.value = (text.drop v.start).take (v.stop - v.start) := List.drop_take

/-- **Every slice has a shape.** A head with a whole prefix is a cut behind it, and
a slice that is not cut is whole cells. -/
theorem exists_shape (hm : Masks r text cs) (v : Slice r.text) (hne : v.value ≠ []) :
    ∃ s m q, Shape r cs v.value s m q
      ∧ (r.shape.lead <:+: q → CutBehindPrefix r cs v)
      ∧ (¬ Cut r cs v → Exact r cs v (s ++ (Cell.write r.original m ++ q))) := by
  have hstop : v.stop ≤ (Cell.write r.placeholder cs).length :=
    v.stop_le.trans (congrArg List.length hm.shown).le
  have hle := v.start_le
  have hstart := hle.trans hstop
  have hvalue : v.value
      = ((Cell.write r.placeholder cs).drop v.start).take (v.stop - v.start) :=
    v.value_eq.trans (congrArg (fun t => (List.drop v.start t).take _) hm.shown)
  rw [hvalue]
  obtain ⟨a, rest, rfl, ha⟩ | ⟨a, i, rest, rfl, hlo, hhi⟩ := Cell.exists_cut hstart
  · -- the slice begins at a border of cells
    have hlen : v.stop - v.start ≤ (Cell.write r.placeholder rest).length := by
      rw [Cell.write_append, List.length_append] at hstop
      omega
    -- its end lies at a border too, or inside the placeholder that `q` begins
    obtain ⟨m, q, htake, hq⟩ := Cell.exists_take hlen
    refine ⟨[], m, q, ⟨?_, ?_, List.not_mem_nil, ?_⟩, ?_, ?_⟩
    · rw [Cell.write_append, ← ha, List.drop_left, ha, htake, List.nil_append]
    · obtain ⟨-, b, rfl, -⟩ | ⟨i, b, -, rfl, -⟩ := hq
      · exact ⟨a, b, rfl⟩
      · exact ⟨a, .label i :: b, rfl⟩
    · refine hq.imp And.left ?_
      rintro ⟨i, -, j, -, hqj, hj, hji, -⟩
      exact ⟨i, j, hqj, hj, hji⟩
    · intro hlead
      obtain ⟨rfl, -⟩ | ⟨i, b, j, rfl, rfl, -, hji, hm'⟩ := hq
      · exact absurd (List.infix_nil.mp hlead) (List.cons_ne_nil _ _)
      · refine ⟨a ++ m, i, b, j, by rw [List.append_assoc], ?_, lead_infix_take_render.mp hlead,
          hji, ?_⟩ <;> rw [Cell.write_append, List.length_append] <;> omega
    · intro hcut
      obtain ⟨rfl, b, rfl, hmlen⟩ | ⟨i, b, j, rfl, -, hj, hji, hm'⟩ := hq
      · refine .inr ⟨a, m, b, rfl, ha, ?_, ?_⟩
        · rw [Cell.write_append, List.length_append]
          omega
        · rw [List.nil_append, List.append_nil]
      · refine absurd ⟨hne, .inr ⟨a ++ m, i, b, by rw [List.append_assoc], ?_, ?_⟩⟩ hcut <;>
          rw [Cell.write_append, List.length_append] <;> omega
  · -- the slice begins inside a placeholder
    have hcutv : Cut r (a ++ .label i :: rest) v := ⟨hne, .inl ⟨a, i, rest, rfl, hlo, hhi⟩⟩
    -- `k` characters of that placeholder are missing
    generalize hk : v.start - (Cell.write r.placeholder a).length = k
    generalize hn : v.stop - v.start = n
    have hdrop : (Cell.write r.placeholder (a ++ .label i :: rest)).drop v.start
        = (r.placeholder i).drop k ++ Cell.write r.placeholder rest := by
      rw [Cell.write_append, Cell.write_cons, Cell.text, List.drop_append,
        List.drop_eq_nil_of_le hlo.le, List.nil_append, hk,
        List.drop_append_of_le_length (by omega)]
    rw [Cell.write_append, Cell.write_cons, Cell.text, List.length_append, List.length_append]
      at hstop
    have hlen : n - ((r.placeholder i).drop k).length ≤ (Cell.write r.placeholder rest).length := by
      rw [List.length_drop]
      omega
    obtain ⟨m, q, htake, hq⟩ := Cell.exists_take hlen
    refine ⟨((r.placeholder i).drop k).take n, m, q, ⟨?_, ?_, ?_, ?_⟩, ?_,
      fun h => absurd hcutv h⟩
    · rw [hdrop, List.take_append, htake]
    · obtain ⟨-, b, rfl, -⟩ | ⟨j, b, -, rfl, -⟩ := hq
      · exact ⟨a ++ [.label i], b, by rw [List.append_assoc]; rfl⟩
      · exact ⟨a ++ [.label i], .label j :: b, by rw [List.append_assoc]; rfl⟩
    · intro hmem
      exact opening_not_mem_drop (hm.numeral i) (by omega) (List.mem_of_mem_take hmem)
    · refine hq.imp And.left ?_
      rintro ⟨i, -, j, -, hqj, hj, hji, -⟩
      exact ⟨i, j, hqj, hj, hji⟩
    · intro hlead
      obtain ⟨rfl, -⟩ | ⟨i', b, j, rfl, rfl, hj, hji, hm'⟩ := hq
      · exact absurd (List.infix_nil.mp hlead) (List.cons_ne_nil _ _)
      · rw [List.length_drop] at hm'
        refine ⟨a ++ (.label i :: m), i', b, j, by rw [List.append_assoc]; rfl, ?_,
          lead_infix_take_render.mp hlead, hji, ?_⟩
        · rw [Cell.write_append, Cell.write_cons, Cell.text, List.length_append,
            List.length_append]
          omega
        · rw [Cell.write_append, Cell.write_cons, Cell.text, List.length_append,
            List.length_append]
          omega

/-- A cut behind a whole prefix has a shape with that prefix in its head. -/
theorem exists_shape_of_cutBehindPrefix (hm : Masks r text cs) {v : Slice r.text}
    (h : CutBehindPrefix r cs v) :
    v.value ≠ [] ∧ ∃ s m q, Shape r cs v.value s m q ∧ r.shape.lead <:+: q := by
  obtain ⟨a, i, b, j, rfl, hstart, hlead, hj, hstop⟩ := h
  have hpos : 0 < r.shape.lead.length := Nat.succ_pos _
  -- the value is what stands before the placeholder, and `j` characters of it
  have hvalue :
      v.value = (Cell.write r.placeholder a).drop v.start ++ (r.placeholder i).take j := by
    have htext : r.text.take v.stop = Cell.write r.placeholder a ++ (r.placeholder i).take j := by
      refine (congrArg (List.take v.stop) hm.shown).trans ?_
      rw [hstop, Cell.write_append, Cell.write_cons, Cell.text, List.take_append,
        List.take_of_length_le (Nat.le_add_right _ _), Nat.add_sub_cancel_left,
        List.take_append_of_le_length hj.le]
    rw [Slice.value, htext, List.drop_append_of_le_length hstart]
  have hne : v.value ≠ [] := by
    intro hnil
    have := congrArg List.length (hvalue.symm.trans hnil)
    rw [List.length_append, List.length_take, List.length_nil] at this
    omega
  have hhead : (r.placeholder i).take j = [] ∨ ∃ i' j', (r.placeholder i).take j
      = (r.placeholder i').take j' ∧ 0 < j' ∧ j' < (r.placeholder i').length :=
    .inr ⟨i, j, rfl, lt_of_lt_of_le hpos hlead, hj⟩
  refine ⟨hne, ?_⟩
  obtain ⟨a, m, rfl, ha⟩ | ⟨a, i', m, rfl, hlo, hhi⟩ := Cell.exists_cut hstart
  · refine ⟨[], m, _, ⟨?_, ⟨a, .label i :: b, List.append_assoc _ _ _⟩, List.not_mem_nil, hhead⟩,
      lead_infix_take_render.mpr hlead⟩
    rw [hvalue, Cell.write_append, ← ha, List.drop_left, List.nil_append]
  · refine ⟨(r.placeholder i').drop (v.start - (Cell.write r.placeholder a).length), m, _,
      ⟨?_, ⟨a ++ [.label i'], .label i :: b, by simp⟩, ?_, hhead⟩,
      lead_infix_take_render.mpr hlead⟩
    · rw [hvalue, Cell.write_append, Cell.write_cons, Cell.text, List.drop_append,
        List.drop_eq_nil_of_le hlo.le, List.nil_append, List.drop_append_of_le_length (by omega),
        List.append_assoc]
    · exact opening_not_mem_drop (hm.numeral i') (by omega)

/-! ### Outcomes -/

/-- A computation that raises a `ValueError` when `bad` holds, and otherwise
returns a value with the property `P` exactly when `good` holds. -/
structure Answers {β : Type} (bad good : Prop) (P : β → Prop) (e : Except PyError β) : Prop where
  raises : bad → ∃ msg, e = .error (.valueError msg)
  returns : ¬ bad → ∃ out, e = .ok out ∧ (P out ↔ good)

theorem Answers.pure {β : Type} {good : Prop} {P : β → Prop} {out : β} (h : P out ↔ good) :
    Answers False good P (Pure.pure out) :=
  ⟨False.elim, fun _ => ⟨out, rfl, h⟩⟩

/-- Outcomes one after the other: the first failure counts. -/
theorem Answers.bind {β γ : Type} {bad bad' good good' : Prop} {P : β → Prop} {Q : γ → Prop}
    {e : Except PyError β} {f : β → Except PyError γ} (h : Answers bad good P e)
    (hf : ∀ out, (P out ↔ good) → Answers bad' good' Q (f out)) :
    Answers (bad ∨ bad') good' Q (e >>= f) := by
  by_cases hbad : bad
  · obtain ⟨msg, rfl⟩ := h.raises hbad
    exact ⟨fun _ => ⟨msg, rfl⟩, fun hno => absurd (.inl hbad) hno⟩
  · obtain ⟨out, rfl, hout⟩ := h.returns hbad
    obtain ⟨hraises, hreturns⟩ := hf out hout
    exact ⟨fun hor => hraises (hor.resolve_left hbad), fun hno => hreturns fun hb => hno (.inr hb)⟩

/-- **One value**: `_restore` raises at a cut behind a whole prefix, and otherwise
gives the exact value unless the slice was cut. -/
theorem answers_slice (hm : Masks r text cs) (v : Slice r.text) :
    Answers (CutBehindPrefix r cs v) (¬ Cut r cs v)
      (fun out => ∃ t, out = some t ∧ Exact r cs v t) (r.restoreValue (some v.value)) := by
  -- the empty value is handed through
  by_cases hne : v.value = []
  · refine ⟨fun hbad => absurd hne (exists_shape_of_cutBehindPrefix hm hbad).1, fun _ => ?_⟩
    rw [hne]
    exact ⟨some [], rfl, fun _ hcut => hcut.1 hne, fun _ => ⟨[], rfl, .inl ⟨hne, rfl⟩⟩⟩
  · constructor
    · intro hbad
      obtain ⟨-, s, m, q, hshape, hlead⟩ := exists_shape_of_cutBehindPrefix hm hbad
      rw [restoreValue_shape hm hshape hne, if_pos hlead]
      exact ⟨_, rfl⟩
    · intro hgood
      obtain ⟨s, m, q, hshape, hlead, hexact⟩ := exists_shape hm v hne
      rw [restoreValue_shape hm hshape hne, if_neg fun h => hgood (hlead h)]
      refine ⟨_, rfl, ?_, fun hcut => ⟨_, rfl, hexact hcut⟩⟩
      -- an exact value rules the cut out, whatever `_restore` returned
      rintro ⟨t, -, ht⟩
      exact not_cut_of_exact ht

/-- A value that may be absent. -/
theorem answers_value (hm : Masks r text cs) (v : Option (Slice r.text)) :
    Answers (∃ x ∈ v, CutBehindPrefix r cs x) (∀ x ∈ v, ¬ Cut r cs x)
      (Option.Rel (Exact r cs) v) (r.restoreValue (v.map Slice.value)) := by
  cases v with
  | none =>
    refine ⟨fun ⟨x, hx, _⟩ => absurd hx (by simp),
      fun _ => ⟨none, rfl, fun _ x hx => ?_, fun _ => .none⟩⟩
    exact absurd hx (by simp)
  | some v =>
    obtain ⟨hraises, hreturns⟩ := answers_slice hm v
    refine ⟨?_, fun hno => ?_⟩
    · rintro ⟨x, hx, hbad⟩
      obtain rfl := Option.mem_some_iff.mp hx
      exact hraises hbad
    · obtain ⟨out, hout, hiff⟩ := hreturns fun hbad => hno ⟨v, rfl, hbad⟩
      refine ⟨out, hout, ?_, fun hall => ?_⟩
      · intro hrel x hx
        obtain rfl := Option.mem_some_iff.mp hx
        cases hrel with
        | some hexact => exact hiff.mp ⟨_, rfl, hexact⟩
      · obtain ⟨t, rfl, ht⟩ := hiff.mpr (hall v rfl)
        exact .some ht

/-! ### What a parse hands back -/

/-- The result of a parse of the masked text: slices of it. -/
structure Parse (text : List Char) where
  reasoning : Option (Slice text)
  content : Option (Slice text)
  toolCalls : Option (List (FunctionCall (Slice text)))

/-- The slices of a tool call. -/
def FunctionCall.values {α : Type*} (call : FunctionCall α) : List α :=
  call.name.toList ++ call.arguments.toList

/-- All slices of a parse. -/
def Parse.values {text : List Char} (p : Parse text) : List (Slice text) :=
  (p.toolCalls.getD []).flatMap FunctionCall.values ++ p.reasoning.toList ++ p.content.toList

/-- A tool call with exact values. -/
def ExactCall (r : OutputTokenSplitResult) (cs : List (Cell ℕ Char))
    (call : FunctionCall (Slice r.text))
    (out : FunctionCall (List Char)) : Prop :=
  Option.Rel (Exact r cs) call.name out.name ∧ Option.Rel (Exact r cs) call.arguments out.arguments

/-- The tool calls a parse hands back, as texts. -/
def Parse.calls {text : List Char} (p : Parse text) : Option (List (FunctionCall (List Char))) :=
  p.toolCalls.map fun calls => calls.map (FunctionCall.map Slice.value)

theorem answers_calls (hm : Masks r text cs) (calls : List (FunctionCall (Slice r.text))) :
    Answers (∃ x ∈ calls.flatMap FunctionCall.values, CutBehindPrefix r cs x)
      (∀ x ∈ calls.flatMap FunctionCall.values, ¬ Cut r cs x)
      (List.Forall₂ (ExactCall r cs) calls)
      (r.restoreCalls (calls.map (FunctionCall.map Slice.value))) := by
  induction calls with
  | nil =>
    exact ⟨fun ⟨x, hx, _⟩ => absurd hx List.not_mem_nil,
      fun _ => ⟨[], rfl, fun _ x hx => absurd hx List.not_mem_nil, fun _ => .nil⟩⟩
  | cons call calls ih =>
    -- the values of the first call, then those of the rest
    have hvalues : ∀ Q : Slice r.text → Prop,
        (∃ x ∈ (call :: calls).flatMap FunctionCall.values, Q x)
          ↔ (∃ x ∈ call.name, Q x) ∨ (∃ x ∈ call.arguments, Q x)
            ∨ (∃ x ∈ calls.flatMap FunctionCall.values, Q x) ∨ False := by
      intro Q
      rw [List.flatMap_cons, FunctionCall.values]
      simp only [List.mem_append, Option.mem_toList, or_and_right, exists_or, or_false, or_assoc,
        Option.mem_def]
    have hgood : (∀ x ∈ (call :: calls).flatMap FunctionCall.values, ¬ Cut r cs x)
        ↔ (∀ x ∈ call.name, ¬ Cut r cs x) ∧ (∀ x ∈ call.arguments, ¬ Cut r cs x)
          ∧ ∀ x ∈ calls.flatMap FunctionCall.values, ¬ Cut r cs x := by
      have := not_congr (hvalues (Cut r cs))
      push Not at this
      simpa using this
    rw [hvalues, hgood]
    refine Answers.bind (answers_value hm call.name) fun name hname => ?_
    refine Answers.bind (answers_value hm call.arguments) fun arguments harguments => ?_
    refine Answers.bind ih fun restored hrestored => Answers.pure ?_
    rw [List.forall₂_cons, ExactCall, hname, harguments, hrestored, and_assoc]

/-- The tool calls, which may be absent. -/
theorem answers_toolCalls (hm : Masks r text cs) (p : Parse r.text) :
    Answers (∃ x ∈ (p.toolCalls.getD []).flatMap FunctionCall.values, CutBehindPrefix r cs x)
      (∀ x ∈ (p.toolCalls.getD []).flatMap FunctionCall.values, ¬ Cut r cs x)
      (fun restored =>
        Option.Rel (List.Forall₂ (ExactCall r cs)) p.toolCalls (p.calls.map fun _ => restored))
      (r.restoreCalls (p.calls.getD [])) := by
  unfold Parse.calls
  cases p.toolCalls with
  | none =>
    exact ⟨fun ⟨x, hx, _⟩ => absurd hx List.not_mem_nil,
      fun _ => ⟨[], rfl, fun _ x hx => absurd hx List.not_mem_nil, fun _ => .none⟩⟩
  | some calls =>
    obtain ⟨hraises, hreturns⟩ := answers_calls hm calls
    refine ⟨hraises, fun hno => ?_⟩
    obtain ⟨out, hout, hiff⟩ := hreturns hno
    refine ⟨out, hout, ?_⟩
    rw [Option.map_some, Option.map_some, Option.rel_some_some]
    exact hiff

/-- A sound outcome: `restore` gives up and leaves the tool calls as they were, or
every value is exact. -/
def Sound (r : OutputTokenSplitResult) (cs : List (Cell ℕ Char)) (p : Parse r.text) :
    Except PyError (Option (Option (List Char) × Option (List Char))
      × Option (List (FunctionCall (List Char)))) → Prop
  | .error _ => False
  | .ok (none, calls) => calls = p.calls
  | .ok (some (reasoning, content), calls) =>
    Option.Rel (List.Forall₂ (ExactCall r cs)) p.toolCalls calls
      ∧ Option.Rel (Exact r cs) p.reasoning reasoning ∧ Option.Rel (Exact r cs) p.content content

/-- **When restoring is sound.** For every result of `split` and every parse of its
text, the outcome of `restore` is sound if and only if some value ends inside a
placeholder behind its whole prefix, or no value is cut inside a placeholder. -/
theorem restore_iff (s : OutputTokenSplit) (text : List Char) (ids : List ℕ)
    (r : OutputTokenSplitResult) (h : s.split text ids = .ok (some r)) (p : Parse r.text) :
    Sound r (cells (visibleAtoms s text ids)) p
        (r.restore (p.reasoning.map Slice.value) (p.content.map Slice.value) p.calls)
      ↔ (∃ v ∈ p.values, CutBehindPrefix r (cells (visibleAtoms s text ids)) v)
        ∨ ∀ v ∈ p.values, ¬ Cut r (cells (visibleAtoms s text ids)) v := by
  have hm := masks_of_split h
  generalize cells (visibleAtoms s text ids) = cs at hm
  -- all values, in the order in which they are restored
  have hvalues : ∀ Q : Slice r.text → Prop, (∃ v ∈ p.values, Q v)
      ↔ (∃ x ∈ (p.toolCalls.getD []).flatMap FunctionCall.values, Q x)
        ∨ (∃ x ∈ p.reasoning, Q x) ∨ (∃ x ∈ p.content, Q x) ∨ False := by
    intro Q
    rw [Parse.values]
    simp only [List.mem_append, Option.mem_toList, or_and_right, exists_or, or_false, or_assoc,
      Option.mem_def]
  have hgood : (∀ v ∈ p.values, ¬ Cut r cs v)
      ↔ (∀ x ∈ (p.toolCalls.getD []).flatMap FunctionCall.values, ¬ Cut r cs x)
        ∧ (∀ x ∈ p.reasoning, ¬ Cut r cs x) ∧ ∀ x ∈ p.content, ¬ Cut r cs x := by
    have := not_congr (hvalues (Cut r cs))
    push Not at this
    simpa using this
  -- the three steps of `attempt` answer for all values together
  have hattempt : Answers
      (∃ v ∈ p.values, CutBehindPrefix r cs v) (∀ v ∈ p.values, ¬ Cut r cs v)
      (fun out => Sound r cs p (.ok (some (out.2.1, out.2.2), p.calls.map fun _ => out.1)))
      (do
        let restored ← r.restoreCalls (p.calls.getD [])
        let reasoning ← r.restoreValue (p.reasoning.map Slice.value)
        let content ← r.restoreValue (p.content.map Slice.value)
        pure (restored, reasoning, content)) := by
    rw [hvalues, hgood]
    refine Answers.bind (answers_toolCalls hm p) fun restored hrestored => ?_
    refine Answers.bind (answers_value hm p.reasoning) fun reasoning hreasoning => ?_
    refine Answers.bind (answers_value hm p.content) fun content hcontent => Answers.pure ?_
    show _ ∧ _ ∧ _ ↔ _
    rw [hrestored, hreasoning, hcontent]
  unfold OutputTokenSplitResult.restore
  dsimp only
  by_cases hbad : ∃ v ∈ p.values, CutBehindPrefix r cs v
  · obtain ⟨msg, hraise⟩ := hattempt.raises hbad
    rw [hraise]
    exact ⟨fun _ => .inl hbad, fun _ => rfl⟩
  · obtain ⟨⟨restored, reasoning, content⟩, hreturn, hsound⟩ := hattempt.returns hbad
    rw [hreturn]
    exact hsound.trans ⟨.inr, fun hor => hor.resolve_left hbad⟩

/-- **A cut inside the prefix goes unnoticed.** The content is the first three
characters of the placeholder, and comes back as they are. -/
theorem restore_cut_inside_lead :
    dsmlSplit.split "｜DSML｜｜DSML｜".toList quotedIds = .ok (some quotedResult)
      ∧ "DSV".toList <+: quotedResult.text
      ∧ quotedResult.restore none (some "DSV".toList) none
          = .ok (some (none, some "DSV".toList), none)
      ∧ ¬ "DSV".toList <:+: "｜DSML｜｜DSML｜".toList :=
  ⟨split_quoted, by decide, by rfl, by decide⟩

/-- The whole masked text as content. -/
def wholeParse : Parse quotedResult.text :=
  ⟨none, some ⟨0, quotedResult.text.length, Nat.zero_le _, le_rfl⟩, none⟩

/-- The whole text is restored: neither end of it is inside a placeholder. -/
theorem restore_iff_whole :
    Sound quotedResult (cells (visibleAtoms dsmlSplit "｜DSML｜｜DSML｜".toList quotedIds)) wholeParse
      (quotedResult.restore (wholeParse.reasoning.map Slice.value)
        (wholeParse.content.map Slice.value) wholeParse.calls) := by
  refine (restore_iff _ _ _ _ split_quoted wholeParse).mpr (.inr ?_)
  have hm := masks_of_split split_quoted
  generalize cells (visibleAtoms dsmlSplit "｜DSML｜｜DSML｜".toList quotedIds) = cs at hm
  intro v hv
  obtain rfl := List.mem_singleton.mp hv
  rintro ⟨-, hstart | hstop⟩
  · exact Cell.not_insideLabel (a := []) hstart
  · have hlen : quotedResult.text.length = (Cell.write quotedResult.placeholder cs).length :=
      congrArg List.length hm.shown
    have hborder := Cell.not_insideLabel (f := quotedResult.placeholder) (a := cs) (b := [])
    rw [List.append_nil, ← hlen] at hborder
    exact hborder hstop

end OutputSplit
end Dsv41Overlay
