import Dsv41Overlay.Lib.System
import Dsv41Overlay.Yoco.ForwardEq

/-!
# Serving with truncated forwards

`serving_eq_masked` lifts `forward_eq_masked` to whole runs. Two engines execute
the same steps: one runs the patched forwards, the other the forwards on all rows
with the decoder's windows masked. Whatever the steps are, neither engine raises,
their caches agree after every step, and a step returns the same rows wherever
the truncated forward kept them.

The two engines do not stay in the same state. The top-k and candidate buffers
outlive a forward, and a truncated one leaves other rows in them. `SameMemory`
relates two forwards of the same rows that start from different buffers: a buffer
is only read where a layer below has filled it, or by a layer whose attention has
no use for it (`attnFfn_sameMemory`).
-/

namespace Dsv41Overlay
namespace Yoco

open Batch

variable {F E A X V K B R Y : Type}

/-! ### Buffers that outlive a forward -/

/-- What is expected of the top-k buffer: at or below a layer with
compressed KV there is an indexer, and a pure sliding-window layer attends to no
compressed position. -/
structure DeepseekV4Model.FillsTopk (model : DeepseekV4Model F E A X V K B R Y) : Prop where
  indexSource : ∀ l < model.config.numHiddenLayers, 0 < model.config.compressRatio l →
    ∃ src ≤ l, src ∈ model.config.indexSourceLayerIds
  sliding : ∀ l layer, model.layers[l]? = some layer → model.config.compressRatio l = 0 →
    ∀ f r p x window topk topk₂ shared,
      layer.mqa f r p x window topk shared = layer.mqa f r p x window topk₂ shared

/-- The memories of two forwards of the same `n` rows before layer `l`. Their
top-k rows agree once an indexer has run, the candidate blocks once they are
live. -/
structure SameMemory (cfg : Config) (n maxSeqLen l : ℕ) (m m₂ : Memory V K) : Prop where
  length : n ≤ m.topk.length ∧ n ≤ m₂.topk.length
  swa : m.swa = m₂.swa
  shared : m.shared = m₂.shared
  topk : (∃ src < l, cfg.isIndexSource src = true) → Selects (List.range n) m.topk m₂.topk
  candidate : CandidatesLive cfg maxSeqLen l → Selects (List.range n) m.candidate m₂.candidate

section Layer

variable {model : DeepseekV4Model F E A X V K B R Y} {b n l : ℕ}
  {layer : DecoderLayer F E A X V K B} {v : LayerView F}

/-- A view is its own restriction to all rows. -/
theorem viewGathered_range (hswa : v.swa.length = n) (hindex : v.index.rows.length = n) :
    ViewGathered (List.range n) v v := by
  constructor
  case other => rfl
  case maxSeqLen => rfl
  case swa => exact gathers_range hswa
  case request => exact gathers_range (by rw [List.length_map, hindex])
  case dead =>
    intro i row hrow hi
    have hlt : i < v.swa.length := (List.getElem?_eq_some_iff.mp hrow).1
    rw [hswa] at hlt
    exact absurd (List.mem_range.mpr hlt) hi

/-- A pure sliding-window layer reads no buffer that outlives a forward. -/
theorem sparseAttn_of_sliding {cfg : Config} (hsrc : cfg.isIndexSource l = false)
    (hignores : ∀ f r p x window topk topk₂ shared,
      layer.mqa f r p x window topk shared = layer.mqa f r p x window topk₂ shared)
    (pos : List ℕ) {xs : List A} {m m₂ : Memory V K} (hswa : m.swa = m₂.swa)
    (hshared : m.shared = m₂.shared) (hlen : xs.length ≤ m.topk.length)
    (hlen₂ : xs.length ≤ m₂.topk.length) :
    (layer.sparseAttn cfg l v pos xs m).1 = (layer.sparseAttn cfg l v pos xs m₂).1 ∧
      (layer.sparseAttn cfg l v pos xs m).2.swa = (layer.sparseAttn cfg l v pos xs m₂).2.swa ∧
      ∀ m : Memory V K, (layer.sparseAttn cfg l v pos xs m).2.topk = m.topk ∧
        (layer.sparseAttn cfg l v pos xs m).2.candidate = m.candidate := by
  -- without an indexer the layer publishes nothing
  have hindexer : ∀ rows (m : Memory V K),
      layer.indexer cfg l v rows m = (m.topk, m.candidate) := by
    intro rows m
    unfold DecoderLayer.indexer
    rw [hsrc]
    rfl
  have hrows : (attnRows v pos xs).length ≤ xs.length := by
    simp only [attnRows, List.length_zipWith, List.length_zip]
    omega
  unfold DecoderLayer.sparseAttn
  dsimp only
  simp only [hindexer, hswa, hshared]
  refine ⟨?_, trivial, fun m => ⟨trivial, trivial⟩⟩
  refine zipWith_of_ignores ?_ (hrows.trans hlen) (hrows.trans hlen₂)
  intro r topk topk₂
  exact hignores ..

variable (layer) in
/-- **One layer from different buffers** computes the same rows and stores the
same entries. -/
theorem attnFfn_sameMemory (hb : Boundary model.config b) (hm : model.Fits)
    (hf : model.FillsTopk) (hl : l < model.config.numHiddenLayers)
    (hlayer : model.layers[l]? = some layer) (hswa : v.swa.length = n)
    (hindex : v.index.rows.length = n) {pos ids : List ℕ} {xs : List A} (hpos : pos.length = n)
    (hids : ids.length = n) (hxs : xs.length = n) {m m₂ : Memory V K}
    (h : SameMemory model.config n v.index.maxSeqLen l m m₂) :
    (layer.attnFfn model.config l v false pos ids xs m).1
        = (layer.attnFfn model.config l v false pos ids xs m₂).1 ∧
      SameMemory model.config n v.index.maxSeqLen (l + 1)
        (layer.attnFfn model.config l v false pos ids xs m).2
        (layer.attnFfn model.config l v false pos ids xs m₂).2 := by
  -- what the attention reads, after the layer has fed the shared KV if it is a source
  obtain ⟨m', hm'⟩ : ∃ m', (if model.config.isKvSource l && !false then
    layer.produceKvFull v pos xs m else m) = m' := ⟨_, rfl⟩
  obtain ⟨m₂', hm₂'⟩ : ∃ m₂', (if model.config.isKvSource l && !false then
    layer.produceKvFull v pos xs m₂ else m₂) = m₂' := ⟨_, rfl⟩
  have hread : SameMemory model.config n v.index.maxSeqLen l m' m₂' := by
    subst hm' hm₂'
    split
    · exact { h with shared := congrArg (layer.produceKv v.other v.index pos xs) h.shared }
    · exact h
  have hlength : n ≤ (layer.attnFfn model.config l v false pos ids xs m).2.topk.length ∧
      n ≤ (layer.attnFfn model.config l v false pos ids xs m₂).2.topk.length :=
    ⟨h.length.1.trans (length_attnFfn_topk model l layer v false pos ids xs m),
      h.length.2.trans (length_attnFfn_topk model l layer v false pos ids xs m₂)⟩
  by_cases hfilled : model.config.isIndexSource l = true ∨
      ∃ src < l, model.config.isIndexSource src = true
  · -- the top-k rows are filled by now
    have hout := attnFfn_gathers layer model.config l m m' m₂ m₂' false false
      List.pairwise_lt_range (viewGathered_range hswa hindex) (gathers_range hpos)
      (gathers_range hids) (gathers_range hxs) hm' hm₂' hread.swa hread.shared
      (fun hno => hread.topk (hfilled.resolve_left (by rw [hno]; exact Bool.false_ne_true)))
      (fun huse hlong => hread.candidate (live_of_usesCandidates hb hm hl huse hlong))
    refine ⟨eq_of_gathers_range ?_ hout.rows, hlength, hout.swa, hout.shared, fun _ => hout.topk,
      fun hlive => hout.candidate ?_⟩
    · unfold DecoderLayer.attnFfn
      simp only [List.length_zipWith, List.length_zip]
      omega
    · exact (live_or_published hb hm hl hlive).imp_left hread.candidate
  · -- a pure sliding-window layer below every indexer
    obtain ⟨hsrc, hbelow⟩ := not_or.mp hfilled
    have hsrc := Bool.eq_false_of_not_eq_true hsrc
    -- a layer with compressed KV would have an indexer at or below it
    have hratio : model.config.compressRatio l = 0 := by
      refine Nat.eq_zero_of_not_pos fun hpos => ?_
      obtain ⟨src, hle, hmem⟩ := hf.indexSource l hl hpos
      have hindexer : model.config.isIndexSource src = true := by
        rw [Config.isIndexSource, decide_eq_true_eq]
        exact ⟨hle.trans_lt hl, hmem⟩
      rcases Nat.lt_or_eq_of_le hle with hlt | rfl
      · exact hbelow ⟨src, hlt, hindexer⟩
      · rw [hsrc] at hindexer
        cases hindexer
    obtain ⟨hrows, hstore, hbuffers⟩ := sparseAttn_of_sliding hsrc
      (hf.sliding l layer hlayer hratio) pos (v := v) hread.swa hread.shared
      (hxs.le.trans hread.length.1) (hxs.le.trans hread.length.2)
    have hout : ∀ m, layer.attnFfn model.config l v false pos ids xs m
        = (List.zipWith (fun ix b => layer.ffn ix.1 ix.2 b) (ids.zip xs)
            (layer.attn model.config l v false pos xs m).1,
          (layer.attn model.config l v false pos xs m).2) := fun _ => rfl
    have hattn : layer.attn model.config l v false pos xs m
        = layer.sparseAttn model.config l v pos xs m' := by
      rw [DecoderLayer.attn, hm']
    have hattn₂ : layer.attn model.config l v false pos xs m₂
        = layer.sparseAttn model.config l v pos xs m₂' := by
      rw [DecoderLayer.attn, hm₂']
    rw [hout, hout] at hlength ⊢
    rw [hattn, hattn₂] at hlength ⊢
    refine ⟨by rw [hrows], hlength, hstore, hread.shared, ?_, fun hlive => ?_⟩
    · -- no indexer has run yet
      rintro ⟨src, hlt, hindexer⟩
      rcases Nat.lt_succ_iff_lt_or_eq.mp hlt with hlt | rfl
      · exact absurd ⟨src, hlt, hindexer⟩ hbelow
      · rw [hsrc] at hindexer
        cases hindexer
    · rw [(hbuffers m').2, (hbuffers m₂').2]
      rcases live_or_published hb hm hl hlive with hlive | ⟨hindexer, -⟩
      · exact hread.candidate hlive
      · rw [hsrc] at hindexer
        cases hindexer

end Layer

/-! ### A forward from different buffers -/

/-- Two forwards of the same rows before layer `l`: they only differ in what their
memories hold. -/
structure SameRows (cfg : Config) (n maxSeqLen l : ℕ) (s s₂ : LayerState X V K R Y) : Prop where
  rows : HasRows n s
  memory : SameMemory cfg n maxSeqLen l s.memory s₂.memory
  eq : s₂ = { s with memory := s₂.memory }

section Loop

variable {model : DeepseekV4Model F E A X V K B R Y} {engram : Option (List E)} {b n l : ℕ}
  {layer : DecoderLayer F E A X V K B} {layers : List (DecoderLayer F E A X V K B)}
  {v : LayerView F} {s s₂ : LayerState X V K R Y}

theorem captureAux_withMemory (s : LayerState X V K R Y) (m : Memory V K) :
    model.captureAux l { s with memory := m } = { model.captureAux l s with memory := m } := by
  unfold DeepseekV4Model.captureAux
  by_cases hmem : l + 1 ∈ model.auxHiddenStateLayers
  · simp only [if_pos hmem]
  · simp only [if_neg hmem]

variable (engram layer) in
/-- The same with the capture of auxiliary streams. -/
theorem plainStep_sameRows (hb : Boundary model.config b) (hm : model.Fits)
    (hf : model.FillsTopk) (hl : l < model.config.numHiddenLayers)
    (hlayer : model.layers[l]? = some layer) (hswa : v.swa.length = n)
    (hindex : v.index.rows.length = n) (hrows : ∀ rows, engram = some rows → n ≤ rows.length)
    (h : SameRows model.config n v.index.maxSeqLen l s s₂) :
    SameRows model.config n v.index.maxSeqLen (l + 1) (model.plainStep engram l layer v s)
      (model.plainStep engram l layer v s₂) := by
  obtain ⟨hrow, hmem, heq⟩ := h
  have hxs : (layer.pre model.config l engram s.hidden).length = n := by
    rw [length_pre _ (by rw [hrow.hidden]; exact hrows), hrow.hidden]
  obtain ⟨hsame, hnext⟩ := attnFfn_sameMemory layer hb hm hf hl hlayer hswa hindex hrow.positions
    hrow.inputIds hxs hmem
  obtain ⟨out, hout⟩ : ∃ out, layer.attnFfn model.config l v false s.positions s.inputIds
    (layer.pre model.config l engram s.hidden) s.memory = out := ⟨_, rfl⟩
  rw [hout] at hsame hnext
  have hfirst : model.plainStep engram l layer v s
      = model.captureAux l { s with hidden := out.1, memory := out.2 } := by
    rw [← hout]
    rfl
  -- the second forward is the first one with another memory
  have hsecond : model.plainStep engram l layer v s₂ = { model.plainStep engram l layer v s with
      memory := (layer.attnFfn model.config l v false s.positions s.inputIds
        (layer.pre model.config l engram s.hidden) s₂.memory).2 } := by
    rw [heq, hfirst]
    unfold DeepseekV4Model.plainStep
    dsimp only
    rw [← hsame]
    exact captureAux_withMemory { s with hidden := out.1, memory := out.2 } _
  constructor
  case rows => exact plainStep_hasRows hswa hindex hrows hrow
  case memory =>
    rw [hsecond, hfirst, captureAux_memory]
    exact hnext
  case eq => rw [hsecond]

variable (engram layers) in
/-- **All layers** from different buffers. -/
theorem plainLoop_sameRows (hb : Boundary model.config b) (hm : model.Fits)
    (hf : model.FillsTopk) {md : AttnMetadata F} {maxSeqLen : ℕ}
    (hswa : ∀ k, (md.swa k).length = n) (hindex : ∀ k, (md.index k).rows.length = n)
    (hmax : ∀ k, (md.view k).index.maxSeqLen = maxSeqLen)
    (hrows : ∀ rows, engram = some rows → n ≤ rows.length)
    (hl : l + layers.length ≤ model.config.numHiddenLayers)
    (hlayers : ∀ k layer, layers[k]? = some layer → model.layers[l + k]? = some layer)
    (h : SameRows model.config n maxSeqLen l s s₂) :
    SameRows model.config n maxSeqLen (l + layers.length) (model.plainLoop engram md l layers s)
      (model.plainLoop engram md l layers s₂) := by
  induction layers generalizing l s s₂ with
  | nil => exact h
  | cons layer layers ih =>
    rw [List.length_cons] at hl
    have hstep := plainStep_sameRows engram layer hb hm hf (v := md.view l) (by omega)
      (hlayers 0 layer rfl) (hswa l) (hindex l) hrows (by rw [hmax]; exact h)
    rw [hmax] at hstep
    -- the rest of the list is the layers from `l + 1` on
    have hrest : ∀ k layer, layers[k]? = some layer → model.layers[l + 1 + k]? = some layer := by
      intro k layer hk
      rw [Nat.add_assoc, Nat.add_comm 1]
      exact hlayers (k + 1) layer hk
    rw [List.length_cons, ← Nat.add_assoc, Nat.add_right_comm]
    exact ih (by omega) hrest hstep

end Loop

/-! ### Two engines -/

/-- A step the runner executes. -/
structure ServedStep (F E X : Type) where
  inputs : StepInputs F
  rows : DeepseekV4Model.Inputs E X
  /-- Whether the runner has a graph for it. -/
  graph : Bool

/-- The runner feeds one row for each token, and no more than the buffers hold. -/
structure ServedStep.Admissible (n : ℕ) (t : ServedStep F E X) : Prop where
  feeds : t.inputs.Feeds t.rows
  numRows_le : t.inputs.numRows ≤ n

namespace DeepseekV4Model

variable (model : DeepseekV4Model F E A X V K B R Y) (d : Deployment) (b : ℕ)

/-- A step with the patched forward. -/
def serve [Zero R] [Zero Y] (st : Served F V K R) (t : ServedStep F E X) :
    Except String (Outputs Y × Served F V K R) := do
  let fc ← stepContext d b t.inputs t.graph
  model.forward t.rows { st with fc := fc }

/-- The step with the forward on all rows. -/
def serveMasked [Zero R] [Zero Y] (st : Served F V K R) (t : ServedStep F E X) :
    Except String (Outputs Y × Served F V K R) :=
  model.forward t.rows { st with fc := maskContext d b t.inputs t.graph }

/-- Two engines that execute the same steps, with buffers of `n` rows. They start
from one state. -/
def engines [Zero R] [Zero Y] (n : ℕ) :
    System (Served F V K R × Served F V K R) (ServedStep F E X) where
  init p := p.1 = p.2 ∧ p.1.skipKv = none ∧ p.1.Holds n
  step p t p' := t.Admissible n ∧ ∃ out ref, model.serve d b p.1 t = .ok (out, p'.1) ∧
    model.serveMasked d b p.2 t = .ok (ref, p'.2)

end DeepseekV4Model

/-- Two engines between steps: their caches agree. -/
structure SameServed (n : ℕ) (st st₂ : Served F V K R) : Prop where
  skipKv : st.skipKv = none ∧ st₂.skipKv = none
  holds : st.Holds n ∧ st₂.Holds n
  swa : st.memory.swa = st₂.memory.swa
  shared : st.memory.shared = st₂.memory.shared
  mtp : st.mtpHiddenBuffer.isSome = st₂.mtpHiddenBuffer.isSome

/-- What a step returns in both engines: the same at the kept rows, zero rows in
the place of all others. -/
structure SameStep [Zero Y] (n : ℕ) (kept : List ℕ) (out ref : Outputs Y × Served F V K R) :
    Prop where
  hidden : RowsKept n kept out.1.hidden ref.1.hidden
  aux : List.Forall₂ (RowsKept n kept) out.1.aux ref.1.aux
  mtp : Option.Rel (fun buf buf₂ => ∀ f ∈ kept, buf[f]? = buf₂[f]?) out.2.mtpHiddenBuffer
    ref.2.mtpHiddenBuffer

/-- What two forwards of the same `n` rows share, whatever their buffers hold. -/
structure SameForward (n : ℕ) (ref ref₂ : Outputs Y × Served F V K R) : Prop where
  outputs : ref.1 = ref₂.1
  swa : ref.2.memory.swa = ref₂.2.memory.swa
  shared : ref.2.memory.shared = ref₂.2.memory.shared
  mtp : Option.Rel (fun buf buf₂ => ∀ f < n, buf[f]? = buf₂[f]?) ref.2.mtpHiddenBuffer
    ref₂.2.mtpHiddenBuffer

section Options

variable {α : Type*} {r r₂ r₃ : α → α → Prop} {a b c : Option α}

theorem rel_trans (h : ∀ x y z, r x y → r₂ y z → r₃ x z) (hab : Option.Rel r a b)
    (hbc : Option.Rel r₂ b c) : Option.Rel r₃ a c := by
  cases hab with
  | none =>
    cases hbc
    exact .none
  | some hxy =>
    cases hbc with
    | some hyz => exact .some (h _ _ _ hxy hyz)

theorem isSome_of_rel (h : Option.Rel r a b) : a.isSome = b.isSome := by
  cases h <;> rfl

end Options

section Engines

variable {model : DeepseekV4Model F E A X V K B R Y} {d : Deployment} {b n : ℕ}
  {inp : StepInputs F} {rows : DeepseekV4Model.Inputs E X} {st st₂ : Served F V K R}

theorem lt_of_mem_keptRows {keep f : ℕ} (hf : f ∈ keptRows keep inp.batch) : f < inp.numRows := by
  unfold keptRows at hf
  split at hf
  · exact plan_keepIdx_lt hf
  · exact List.mem_range.mp hf

variable (d) in
/-- A masked forward returns the same whatever the buffers hold. -/
theorem maskForward_same [Zero R] [Zero Y] (hb : Boundary model.config b) (hm : model.Fits)
    (hf : model.FillsTopk) (hrows : inp.Feeds rows) (graph : Bool)
    (h : SameServed inp.numRows st st₂) :
    ∃ ref ref₂, model.forward rows { st with fc := maskContext d b inp graph } = .ok ref ∧
      model.forward rows { st₂ with fc := maskContext d b inp graph } = .ok ref₂ ∧
      SameForward inp.numRows ref ref₂ ∧ ref₂.2.skipKv = none ∧
      ∀ m, st₂.Holds m → ref₂.2.Holds m := by
  -- both forwards have as many rows as the step
  have hlen : ∀ memory : Memory V K, inp.numRows ≤ memory.topk.length →
      (model.recon (model.plainLoop rows.engram (maskContext d b inp graph).attnMetadata 0
        model.layers (DeepseekV4Model.start rows memory))).length = inp.numRows := by
    intro memory htopk
    rw [plainLoop_recon hb hm _ rfl, List.length_map]
    exact (maskLoop_hasRows model d b hrows htopk graph model.layers).hidden
  have hfirst := DeepseekV4Model.forward_plain model rows
    { st with fc := maskContext d b inp graph } h.skipKv.1 rfl rfl (fun buf hbuf => by
      rw [hlen _ h.holds.1.topk]
      exact h.holds.1.mtp buf hbuf)
  have hsecond := DeepseekV4Model.forward_plain model rows
    { st₂ with fc := maskContext d b inp graph } h.skipKv.2 rfl rfl (fun buf hbuf => by
      rw [hlen _ h.holds.2.topk]
      exact h.holds.2.mtp buf hbuf)
  have hmax : ∀ k, ((maskContext d b inp graph).attnMetadata.view k).index.maxSeqLen
      = inp.maxSeqLen := fun _ => rfl
  -- before the first layer no buffer is owed anything
  have hstart : SameRows (R := R) (Y := Y) model.config inp.numRows inp.maxSeqLen 0
      (DeepseekV4Model.start rows st.memory) (DeepseekV4Model.start rows st₂.memory) := by
    refine ⟨start_hasRows hrows h.holds.1.topk,
      ⟨⟨h.holds.1.topk, h.holds.2.topk⟩, h.swa, h.shared, ?_, ?_⟩, rfl⟩
    · rintro ⟨src, hlt, -⟩
      exact absurd hlt (Nat.not_lt_zero src)
    · rintro ⟨huse, -⟩
      rw [Config.usesCandidates, decide_eq_true_eq] at huse
      exact absurd huse.2.2 (not_lt.mpr huse.2.1)
  obtain ⟨hrow, hmem, heq⟩ := plainLoop_sameRows rows.engram model.layers hb hm hf
    (fun k => (length_maskContext k).1) (fun k => (length_maskContext k).2) hmax hrows.engram
    (by rw [Nat.zero_add, hm.layers]) (fun k layer hk => by rwa [Nat.zero_add]) hstart
  have hlength := length_plainLoop_topk model rows.engram 0 model.layers
    (DeepseekV4Model.start rows st₂.memory) (maskContext d b inp graph).attnMetadata
  have hrecon := hlen st.memory h.holds.1.topk
  refine ⟨_, _, hfirst, hsecond, ?_, rfl, fun m hm =>
    hm.of_map hlength rfl fun buf => length_le_overwrite _ _⟩
  rw [heq]
  constructor
  case outputs => rfl
  case swa => exact hmem.swa
  case shared => exact hmem.shared
  case mtp =>
    have hmtp := h.mtp
    dsimp only
    cases hst : st.mtpHiddenBuffer with
    | none =>
      rw [hst] at hmtp
      rw [Option.isSome_eq_false_iff.mp hmtp.symm |> Option.isNone_iff_eq_none.mp]
      exact .none
    | some buf =>
      rw [hst] at hmtp
      obtain ⟨buf₂, hst₂⟩ := Option.isSome_iff_exists.mp hmtp.symm
      rw [hst₂]
      refine .some fun f hlt => ?_
      rw [← hrecon] at hlt
      rw [getElem?_overwrite_zero hlt]
      exact (getElem?_overwrite_zero hlt).symm

/-- **One step of both engines.** -/
theorem serve_same [Zero R] [Zero Y] (hb : Boundary model.config b) (hm : model.Fits)
    (hf : model.FillsTopk) {t : ServedStep F E X} (ht : t.Admissible n)
    (h : SameServed n st st₂) :
    ∃ out ref, model.serve d b st t = .ok out ∧ model.serveMasked d b st₂ t = .ok ref ∧
      SameServed n out.2 ref.2 ∧
      SameStep t.inputs.numRows (keptRows d.keep t.inputs.batch) out ref := by
  have hstep : SameServed t.inputs.numRows st st₂ :=
    { h with holds := ⟨h.holds.1.of_le ht.numRows_le, h.holds.2.of_le ht.numRows_le⟩ }
  obtain ⟨fc, out, ref, hfc, hout, href, has, hholds⟩ := forward_asMasked (d := d) hb hm ht.feeds
    h.skipKv.1 hstep.holds.1 t.graph
  obtain ⟨ref', ref₂, href', href₂, hsame, hskip, hholds₂⟩ :=
    maskForward_same d hb hm hf ht.feeds t.graph hstep
  -- the two references of the first engine are one
  rw [href] at href'
  obtain rfl := Except.ok.inj href'
  have hmtp : Option.Rel (fun buf buf₂ => ∀ f ∈ keptRows d.keep t.inputs.batch,
      buf[f]? = buf₂[f]?) out.2.mtpHiddenBuffer ref₂.2.mtpHiddenBuffer := by
    refine rel_trans (fun buf mid buf₂ hbuf hmid f hmem => ?_) has.mtp hsame.mtp
    rw [hbuf f, if_neg fun hno => hno.2 hmem, hmid f (lt_of_mem_keptRows hmem)]
  refine ⟨out, ref₂, ?_, href₂, ?_, ?_⟩
  · rw [DeepseekV4Model.serve, hfc]
    exact hout
  · exact
      { skipKv := ⟨has.restored.2, hskip⟩
        holds := ⟨hholds n h.holds.1, hholds₂ n h.holds.2⟩
        swa := has.caches.1.trans hsame.swa
        shared := has.caches.2.trans hsame.shared
        mtp := isSome_of_rel hmtp }
  · exact
      { hidden := by rw [← hsame.outputs]; exact has.hidden
        aux := by rw [← hsame.outputs]; exact has.aux
        mtp := hmtp }

/-- **Between steps** the caches of the two engines agree, after any run. -/
theorem sameServed_of_reachable [Zero R] [Zero Y] (hb : Boundary model.config b)
    (hm : model.Fits) (hf : model.FillsTopk) {p : Served F V K R × Served F V K R}
    (hp : (model.engines d b n).Reachable p) : SameServed n p.1 p.2 := by
  refine hp.invariant (I := fun p => SameServed n p.1 p.2) ?_ ?_
  · rintro ⟨st, st₂⟩ ⟨hstart, hskip, hholds⟩
    obtain rfl : st = st₂ := hstart
    exact ⟨⟨hskip, hskip⟩, ⟨hholds, hholds⟩, rfl, rfl, rfl⟩
  · rintro ⟨st, st₂⟩ t ⟨st', st₂'⟩ hsame ⟨ht, out, ref, hout, href⟩
    obtain ⟨out', ref', hout', href', hnext, -⟩ := serve_same (d := d) hb hm hf ht hsame
    -- a step has one result
    rw [hout] at hout'
    rw [href] at href'
    obtain rfl := Except.ok.inj hout'
    obtain rfl := Except.ok.inj href'
    exact hnext

/-- **Serving with truncated forwards is serving with masked ones.** With a driver
that has passed its checks, after any run of admissible steps: the next one runs
in both engines, leaves the same caches, and returns the same rows wherever a row
was kept; the row each request samples from is the same. -/
theorem serving_eq_masked [Zero R] [Zero Y] {stack : Stack} {isFamily120 : Bool}
    {spec : Option ℕ} {keep : ℕ} {driver : YocoPrefill}
    (hdriver : YocoPrefill.init stack isFamily120 spec keep = .ok driver)
    (hwindow : 0 < driver.config.slidingWindow) (width : ℕ)
    (hwidth : driver.config.slidingWindow ≤ width) (model : DeepseekV4Model F E A X V K B R Y)
    (hconfig : model.config = driver.config) (hm : model.Fits) (hf : model.FillsTopk) (n : ℕ)
    (p : Served F V K R × Served F V K R)
    (hp : (model.engines (YocoPrefill.deployment hdriver hwindow width hwidth) driver.boundary
      n).Reachable p) (t : ServedStep F E X) (ht : t.Admissible n) :
    SameServed n p.1 p.2 ∧ ∃ out ref,
      model.serve (YocoPrefill.deployment hdriver hwindow width hwidth) driver.boundary p.1 t
        = .ok out ∧
      model.serveMasked (YocoPrefill.deployment hdriver hwindow width hwidth) driver.boundary p.2 t
        = .ok ref ∧
      SameServed n out.2 ref.2 ∧
      SameStep t.inputs.numRows (keptRows driver.keep t.inputs.batch) out ref ∧
      ∀ i < t.inputs.batch.length, out.1.hidden[rowStart t.inputs.batch (i + 1) - 1]?
        = ref.1.hidden[rowStart t.inputs.batch (i + 1) - 1]? := by
  have hb : Boundary model.config driver.boundary := by
    rw [hconfig]
    exact YocoPrefill.boundary_of_init hdriver
  have hsame := sameServed_of_reachable hb hm hf hp
  obtain ⟨out, ref, hout, href, hnext, hstep⟩ := serve_same
    (d := YocoPrefill.deployment hdriver hwindow width hwidth) hb hm hf ht hsame
  exact ⟨hsame, out, ref, hout, href, hnext, hstep, fun i hi => hstep.hidden.sampled hi⟩

end Engines

theorem smallModel_fillsTopk : smallModel.FillsTopk := by
  constructor
  case indexSource =>
    intro l hl hratio
    refine ⟨1, ?_, by decide⟩
    cases l with
    | zero => exact absurd hratio (by decide)
    | succ l => exact Nat.succ_le_succ (Nat.zero_le l)
  case sliding =>
    intro l layer hlayer hratio
    rcases l with - | l
    · obtain rfl : smallLayer false 1 = layer := Option.some.inj hlayer
      intros
      rfl
    · rcases l with - | - | - | l
      · exact absurd hratio (by decide)
      · exact absurd hratio (by decide)
      · exact absurd hratio (by decide)
      · cases hlayer

def smallServedStep : ServedStep Unit ℕ ℕ := ⟨smallStep, smallRows, true⟩

def smallStart : Served Unit ℕ (List ℕ) ℕ :=
  smallServed ⟨⟨(), fun _ => [], fun _ => ⟨0, []⟩⟩, none, false⟩

/-- Two small steps, each of which drops two of its seven rows: after the first the top-k
buffers differ, and after the second the engines still agree. -/
theorem serving_eq_masked_small : ∃ out ref out₂ ref₂,
    smallModel.serve (YocoPrefill.deployment small_init (by decide) 4 (by decide)) 2 smallStart
      smallServedStep = .ok out ∧
    smallModel.serveMasked (YocoPrefill.deployment small_init (by decide) 4 (by decide)) 2
      smallStart smallServedStep = .ok ref ∧
    out.2.memory.topk ≠ ref.2.memory.topk ∧
    smallModel.serve (YocoPrefill.deployment small_init (by decide) 4 (by decide)) 2 out.2
      smallServedStep = .ok out₂ ∧
    smallModel.serveMasked (YocoPrefill.deployment small_init (by decide) 4 (by decide)) 2 ref.2
      smallServedStep = .ok ref₂ ∧
    SameServed 8 out₂.2 ref₂.2 ∧ SameStep 7 [0, 1, 4, 5, 6] out₂ ref₂ := by
  have hadmissible : smallServedStep.Admissible 8 := ⟨smallStep_feeds, by decide⟩
  have hstart : (smallModel.engines (YocoPrefill.deployment small_init (by decide) 4 (by decide)) 2
      8).Reachable (smallStart, smallStart) := .init ⟨rfl, rfl, smallServed_holds _⟩
  obtain ⟨-, out, ref, hout, href, -⟩ := serving_eq_masked small_init (by decide) 4 (by decide)
    smallModel rfl smallModel_fits smallModel_fillsTopk 8 _ hstart smallServedStep hadmissible
  -- the second step starts from what the first one leaves
  have hnext : (smallModel.engines (YocoPrefill.deployment small_init (by decide) 4 (by decide)) 2
      8).Reachable (out.2, ref.2) :=
    hstart.step (l := smallServedStep) trivial ⟨hadmissible, out.1, ref.1, hout, href⟩
  obtain ⟨-, out₂, ref₂, hout₂, href₂, hsame, hstep, -⟩ := serving_eq_masked small_init
    (by decide) 4 (by decide) smallModel rfl smallModel_fits smallModel_fillsTopk 8 _ hnext
    smallServedStep hadmissible
  have hbuffers : (smallModel.serve (YocoPrefill.deployment small_init (by decide) 4 (by decide)) 2
      smallStart smallServedStep).toOption.map (fun out => out.2.memory.topk)
      ≠ (smallModel.serveMasked (YocoPrefill.deployment small_init (by decide) 4 (by decide)) 2
      smallStart smallServedStep).toOption.map fun ref => ref.2.memory.topk := by
    decide +kernel
  rw [hout, href] at hbuffers
  have hkept : keptRows 6 smallStep.batch = [0, 1, 4, 5, 6] := by decide
  refine ⟨out, ref, out₂, ref₂, hout, href, fun h => hbuffers (congrArg some h), hout₂, href₂,
    hsame, ?_⟩
  rw [← hkept]
  exact hstep

end Yoco
end Dsv41Overlay
