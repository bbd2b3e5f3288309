import Dsv41Overlay.Lib.Fallible
import Dsv41Overlay.Yoco.CompactLayer

/-!
# The truncated forward is the masked forward

`forward_eq_masked`: on every step, the patched forward leaves the same caches
and the same shared KV as the forward that runs every layer on every row with
the decoder's windows masked (`maskContext`), and returns the same rows wherever
a row was kept; the other rows are zero.

Both forwards are first freed of their bookkeeping: without a hook the loop is
`plainLoop`, and the round of the boundary layer is `boundaryStep`. Up to the
boundary the two see the same metadata and agree. From there on
`StateGathered` relates the state on the kept rows to the state on all rows; the
boundary establishes it (`boundaryStep_gathers`) and every later layer keeps it
(`plainStep_gathers`). What the topology check is good for shows there: the
boundary fills the top-k buffer anew, candidate blocks come from a decoder layer,
and no later layer produces shared KV or reads n-gram rows.
-/

namespace Dsv41Overlay
namespace Yoco

open Batch

variable {F E A X V K B R Y : Type}

/-! ### The loop with and without the hook -/

section Loop

variable {model : DeepseekV4Model F E A X V K B R Y} {engram : Option (List E)} {l : ℕ}
  {layer : DecoderLayer F E A X V K B} {layers : List (DecoderLayer F E A X V K B)}

namespace DeepseekV4Model

variable (model engram l layer)

/-- A layer without a hook. -/
def plainStep (v : LayerView F) (s : LayerState X V K R Y) : LayerState X V K R Y :=
  let out := layer.attnFfn model.config l v false s.positions s.inputIds
    (layer.pre model.config l engram s.hidden) s.memory
  model.captureAux l { s with hidden := out.1, memory := out.2 }

/-- The boundary layer with the split hook. -/
def boundaryStep (full decoder : LayerView F) (keepIdx : List ℕ) (s : LayerState X V K R Y) :
    LayerState X V K R Y :=
  let xs := layer.pre model.config l engram s.hidden
  let out := layer.attnFfn model.config l decoder true (gather s.positions keepIdx)
    (gather s.inputIds keepIdx) (gather xs keepIdx)
    (layer.produceKvFull full s.positions xs s.memory)
  model.captureAux l
    { s with
      hidden := out.1
      positions := gather s.positions keepIdx
      inputIds := gather s.inputIds keepIdx
      memory := out.2 }

/-- The layers from `l` on without a hook. -/
def plainLoop (md : AttnMetadata F) : ℕ → List (DecoderLayer F E A X V K B) →
    LayerState X V K R Y → LayerState X V K R Y
  | _, [], s => s
  | l, layer :: layers, s => plainLoop md (l + 1) layers
      (model.plainStep engram l layer (md.view l) s)

variable {model engram l layer}

theorem callLayer_plain {s : LoopState F X V K R Y} (hskip : s.skipKv = none)
    (hplan : ∀ step, s.plan = some step → step.boundary ≠ l)
    {out : List X × Memory V K} (hout : layer.attnFfn model.config l (s.fc.attnMetadata.view l)
      false s.positions s.inputIds (layer.pre model.config l engram s.hidden) s.memory = out) :
    model.callLayer engram l layer s = .ok { s with hidden := out.1, memory := out.2 } := by
  obtain ⟨core, fc, plan, skip⟩ := s
  obtain rfl : skip = none := hskip
  subst hout
  unfold callLayer
  cases plan with
  | none => rfl
  | some step =>
    -- the plan is for another layer
    have hne : ¬ l = step.boundary := fun h => hplan step rfl h.symm
    simp only [if_neg hne]
    rfl

theorem round_plain {s : LoopState F X V K R Y} (hskip : s.skipKv = none)
    (hplan : ∀ step, s.plan = some step → step.boundary ≠ l) :
    model.round engram l layer s = .ok { s with
      toLayerState :=
        model.plainStep engram l layer (s.fc.attnMetadata.view l) s.toLayerState } := by
  unfold round
  rw [callLayer_plain hskip hplan rfl]
  obtain ⟨core, fc, plan, skip⟩ := s
  cases plan with
  | none => rfl
  | some step =>
    -- the round passes the plan on
    have hne : ¬ l = step.boundary := fun h => hplan step rfl h.symm
    change (if l = step.boundary then _ else _) = _
    rw [if_neg hne]
    rfl

/-- The hook where every row that is kept is there. -/
theorem split_eq {s : LoopState F X V K R Y} {step : RunningPlan F} {xs : List A}
    (hxs : ∀ i ∈ step.keepIdx, i < xs.length)
    (hpos : ∀ i ∈ step.keepIdx, i < s.positions.length)
    (hids : ∀ i ∈ step.keepIdx, i < s.inputIds.length) :
    step.split layer l xs s = .ok
      ((gather xs step.keepIdx, gather s.positions step.keepIdx, gather s.inputIds step.keepIdx),
        { s with
          memory := layer.produceKvFull (s.fc.attnMetadata.view l) s.positions xs s.memory
          fc := { s.fc with attnMetadata := step.decoderMetadata, dsv41Yoco := none }
          plan := some
            { step with
              positions := some (gather s.positions step.keepIdx)
              inputIds := some (gather s.inputIds step.keepIdx)
              attn := some l }
          skipKv := some l }) := by
  unfold RunningPlan.split
  rw [indexSelect_eq hxs, indexSelect_eq hpos, indexSelect_eq hids]
  rfl

theorem round_boundary {s : LoopState F X V K R Y} (step : RunningPlan F) (hskip : s.skipKv = none)
    (hplan : s.plan = some step) (hl : step.boundary = l)
    (hxs : ∀ i ∈ step.keepIdx, i < (layer.pre model.config l engram s.hidden).length)
    (hpos : ∀ i ∈ step.keepIdx, i < s.positions.length)
    (hids : ∀ i ∈ step.keepIdx, i < s.inputIds.length) :
    model.round engram l layer s = .ok
      { toLayerState := model.boundaryStep engram l layer (s.fc.attnMetadata.view l)
          (step.decoderMetadata.view l) step.keepIdx s.toLayerState
        fc := { s.fc with attnMetadata := step.decoderMetadata, dsv41Yoco := none }
        plan := some
          { step with
            positions := some (gather s.positions step.keepIdx)
            inputIds := some (gather s.inputIds step.keepIdx)
            attn := some l }
        skipKv := none } := by
  obtain ⟨core, fc, plan, skip⟩ := s
  obtain rfl : plan = some step := hplan
  obtain rfl : skip = none := hskip
  subst hl
  -- the skip flag is set and cleared within the round
  unfold round callLayer
  dsimp only
  rw [if_pos rfl, split_eq hxs hpos hids]
  change (if step.boundary = step.boundary then _ else _) = _
  rw [if_pos rfl]
  unfold boundaryStep
  simp only [decide_true]
  rfl

variable (model engram layers) in
/-- A stretch of layers that no hook concerns. -/
theorem loop_plain {s : LoopState F X V K R Y} (hskip : s.skipKv = none)
    (hplan : ∀ step, s.plan = some step →
      step.boundary < l ∨ l + layers.length ≤ step.boundary) :
    model.loop engram l layers s = .ok { s with
      toLayerState := model.plainLoop engram s.fc.attnMetadata l layers s.toLayerState } := by
  induction layers generalizing l s with
  | nil => rfl
  | cons layer layers ih =>
    simp only [List.length_cons] at hplan
    -- the boundary is not this layer
    have hne : ∀ step, s.plan = some step → step.boundary ≠ l := by
      intro step hstep
      have := hplan step hstep
      omega
    have hrest : ∀ step, s.plan = some step →
        step.boundary < l + 1 ∨ l + 1 + layers.length ≤ step.boundary := by
      intro step hstep
      have := hplan step hstep
      omega
    -- a plain round leaves the context, the plan and the flag
    rw [loop, round_plain hskip hne]
    exact ih hskip hrest

theorem loop_append {layers₂ : List (DecoderLayer F E A X V K B)} {s : LoopState F X V K R Y} :
    model.loop engram l (layers ++ layers₂) s
      = model.loop engram l layers s >>= model.loop engram (l + layers.length) layers₂ := by
  induction layers generalizing l s with
  | nil => rfl
  | cons layer layers ih =>
    rw [List.cons_append, loop, loop, bind_assoc]
    refine bind_congr fun s => ?_
    rw [ih, List.length_cons, Nat.add_assoc, Nat.add_comm 1]

theorem plainLoop_append {md : AttnMetadata F} {layers₂ : List (DecoderLayer F E A X V K B)}
    {s : LayerState X V K R Y} :
    model.plainLoop engram md l (layers ++ layers₂) s
      = model.plainLoop engram md (l + layers.length) layers₂
          (model.plainLoop engram md l layers s) := by
  induction layers generalizing l s with
  | nil => rfl
  | cons layer layers ih =>
    rw [List.cons_append, plainLoop, ih, List.length_cons, Nat.add_assoc, Nat.add_comm 1]
    rfl

/-- Layers only depend on their own view of the metadata. -/
theorem plainLoop_congr {md md₂ : AttnMetadata F} {s : LayerState X V K R Y}
    (h : ∀ k, l ≤ k → k < l + layers.length → md.view k = md₂.view k) :
    model.plainLoop engram md l layers s = model.plainLoop engram md₂ l layers s := by
  induction layers generalizing l s with
  | nil => rfl
  | cons layer layers ih =>
    rw [List.length_cons] at h
    rw [plainLoop, plainLoop, h l le_rfl (by omega), ih fun k hk hk₂ => h k (by omega) (by omega)]

end DeepseekV4Model

end Loop

/-! ### The rows behind the boundary -/

/-- The forward on the kept rows beside the one on all rows: `fresh` says that
candidate blocks have been published behind the boundary. -/
structure StateGathered (keep : List ℕ) (fresh : Prop) (s s₂ : LayerState X V K R Y) : Prop where
  hidden : Gathers keep s.hidden s₂.hidden
  positions : Gathers keep s.positions s₂.positions
  inputIds : Gathers keep s.inputIds s₂.inputIds
  swa : s.memory.swa = s₂.memory.swa
  shared : s.memory.shared = s₂.memory.shared
  topk : Selects keep s.memory.topk s₂.memory.topk
  candidate : fresh → Selects keep s.memory.candidate s₂.memory.candidate
  aux : List.Forall₂ (Gathers keep) s.aux s₂.aux

/-- What is expected of a model, and used without a check: one layer for each index,
a ratio for each layer, candidate blocks published by an indexer, and the auxiliary
streams taken where the drafter's targets are. -/
structure DeepseekV4Model.Fits (model : DeepseekV4Model F E A X V K B R Y) : Prop where
  layers : model.layers.length = model.config.numHiddenLayers
  ratios : model.config.numHiddenLayers ≤ model.config.compressRatios.length
  candidate : ∀ l : ℕ, model.config.candidateSourceLayerId = l →
    l ∈ model.config.indexSourceLayerIds
  aux : ∀ t ∈ model.auxHiddenStateLayers, t ∈ model.config.dsparkTargetLayerIds

section Behind

variable {model : DeepseekV4Model F E A X V K B R Y} {engram : Option (List E)} {b l : ℕ}
  {layer : DecoderLayer F E A X V K B} {layers : List (DecoderLayer F E A X V K B)}
  {keep : List ℕ} {part full : LayerView F}

/-- Layer `l` masks its scores with candidate blocks. -/
def CandidatesLive (cfg : Config) (maxSeqLen l : ℕ) : Prop :=
  cfg.usesCandidates l = true ∧ ¬ maxSeqLen ≤ cfg.indexTopk

/-- Candidate blocks that a layer uses were published below it: right below, or
for the layer below already. -/
theorem CandidatesLive.of_succ {cfg : Config} {maxSeqLen : ℕ}
    (h : CandidatesLive cfg maxSeqLen (l + 1)) :
    CandidatesLive cfg maxSeqLen l ∨
      (cfg.isCandidateSource l = true ∧ ¬ maxSeqLen ≤ cfg.indexTopk) := by
  obtain ⟨huse, hlong⟩ := h
  rw [Config.usesCandidates, decide_eq_true_eq] at huse
  obtain ⟨hblocks, hnonneg, hlt⟩ := huse
  rcases Int.lt_or_eq_of_le (Int.lt_add_one_iff.mp (by push_cast at hlt; exact hlt)) with hlt | heq
  · left
    exact ⟨decide_eq_true ⟨hblocks, hnonneg, hlt⟩, hlong⟩
  · right
    exact ⟨decide_eq_true ⟨hblocks, heq⟩, hlong⟩

variable (full) in
/-- A decoder layer has ratio `1`, so its context is short when the step's is. -/
theorem shortContext_iff (hb : Boundary model.config b) (hm : model.Fits) (hbl : b ≤ l)
    (hl : l < model.config.numHiddenLayers) :
    ShortContext model.config l full ↔ full.index.maxSeqLen ≤ model.config.indexTopk := by
  rw [ShortContext, Config.compressRatio, hb.ratio l hbl hl (hl.trans_le hm.ratios), Nat.div_one]

/-- Candidate blocks are only used behind the boundary, where every ratio is `1`. -/
theorem live_of_usesCandidates (hb : Boundary model.config b) (hm : model.Fits)
    (hl : l < model.config.numHiddenLayers) (huse : model.config.usesCandidates l = true)
    (hlong : ¬ ShortContext model.config l full) :
    CandidatesLive model.config full.index.maxSeqLen l := by
  refine ⟨huse, fun hle => hlong ((shortContext_iff full hb hm ?_ hl).mpr hle)⟩
  rw [Config.usesCandidates, decide_eq_true_eq] at huse
  obtain ⟨-, hnonneg, hlt⟩ := huse
  exact_mod_cast ((hb.candidate hnonneg).trans_lt hlt).le

/-- Candidate blocks that are live above a layer were live below it, or the layer
has published them. -/
theorem live_or_published (hb : Boundary model.config b) (hm : model.Fits)
    (hl : l < model.config.numHiddenLayers)
    (h : CandidatesLive model.config full.index.maxSeqLen (l + 1)) :
    CandidatesLive model.config full.index.maxSeqLen l ∨ (model.config.isIndexSource l = true ∧
      model.config.isCandidateSource l = true ∧ ¬ ShortContext model.config l full) := by
  rcases h.of_succ with hlive | ⟨hsrc, hlong⟩
  · exact Or.inl hlive
  -- a later layer is live, or this one publishes the candidates
  · have hid : model.config.candidateSourceLayerId = l := by
      rw [Config.isCandidateSource, decide_eq_true_eq] at hsrc
      exact hsrc.2
    -- the publishing layer is not below the boundary
    have hbl : b ≤ l := by
      have := hb.candidate (by rw [hid]; exact Int.natCast_nonneg l)
      rw [hid] at this
      exact_mod_cast this
    refine Or.inr ⟨?_, hsrc, fun hle => hlong ((shortContext_iff full hb hm hbl hl).mp hle)⟩
    rw [Config.isIndexSource, decide_eq_true_eq]
    exact ⟨hl, hm.candidate l hid⟩

theorem captureAux_gathers {fresh : Prop} {s s₂ : LayerState X V K R Y}
    (h : StateGathered keep fresh s s₂) :
    StateGathered keep fresh (model.captureAux l s) (model.captureAux l s₂) := by
  unfold DeepseekV4Model.captureAux
  split
  · have hnew := (h.hidden.map model.mhcPost).map model.mean
    exact { h with aux := List.rel_append h.aux (.cons hnew .nil) }
  · exact h

variable (engram layer) in
/-- Without n-gram rows the input of the attention is the pre-mix of every row. -/
theorem pre_of_not_hasEngram (h : model.config.hasEngram l = false) (hidden : List X) :
    layer.pre model.config l engram hidden = hidden.map layer.attnPre := by
  unfold DecoderLayer.pre
  cases engram with
  | none => rfl
  | some rows => simp [h]

theorem hasEngram_of_boundary (hb : Boundary model.config b) (hbl : b ≤ l) :
    model.config.hasEngram l = false := by
  rw [Config.hasEngram, decide_eq_false_iff_not]
  intro hmem
  exact absurd (hb.engram l hmem) (not_lt.mpr hbl)

variable (engram layer) in
/-- **A later layer** keeps the relation: it produces no shared KV and reads no
n-gram rows. -/
theorem plainStep_gathers (hb : Boundary model.config b) (hm : model.Fits)
    (hs : keep.Pairwise (· < ·)) (hbl : b < l) (hl : l < model.config.numHiddenLayers)
    (hv : ViewGathered keep part full) {s s₂ : LayerState X V K R Y}
    (h : StateGathered keep (CandidatesLive model.config full.index.maxSeqLen l) s s₂) :
    StateGathered keep (CandidatesLive model.config full.index.maxSeqLen (l + 1))
      (model.plainStep engram l layer part s) (model.plainStep engram l layer full s₂) := by
  -- behind the boundary no layer produces the shared KV
  have hkv : model.config.isKvSource l = false := by
    rw [Config.isKvSource, decide_eq_false_iff_not]
    rintro ⟨-, hmem⟩
    exact absurd (hb.kvSource.2 l hmem) (not_le.mpr hbl)
  have hpre := pre_of_not_hasEngram engram layer (hasEngram_of_boundary hb hbl.le)
  unfold DeepseekV4Model.plainStep
  dsimp only
  rw [hpre, hpre]
  have hxs := h.hidden.map layer.attnPre
  have hout := attnFfn_gathers layer model.config l s.memory s.memory s₂.memory s₂.memory false
    false hs hv h.positions h.inputIds hxs (by rw [hkv]; rfl) (by rw [hkv]; rfl) h.swa h.shared
    (fun _ => h.topk) fun huse hlong => h.candidate (live_of_usesCandidates hb hm hl huse hlong)
  refine captureAux_gathers ?_
  exact
    { hidden := hout.rows
      positions := h.positions
      inputIds := h.inputIds
      swa := hout.swa
      shared := hout.shared
      topk := hout.topk
      candidate := by
        intro hlive
        exact hout.candidate ((live_or_published hb hm hl hlive).imp_left h.candidate)
      aux := h.aux }

variable (engram layer) in
/-- **The boundary layer** establishes the relation. It has produced the shared KV
of all rows by the time it drops some, and fills the top-k buffer itself. -/
theorem boundaryStep_gathers (hb : Boundary model.config b) (hm : model.Fits)
    (hs : keep.Pairwise (· < ·)) (stock : LayerView F) (hv : ViewGathered keep part full)
    (hother : stock.other = full.other) (hindex : stock.index = full.index)
    {s : LayerState X V K R Y} (hhidden : ∀ i ∈ keep, i < s.hidden.length)
    (hpositions : ∀ i ∈ keep, i < s.positions.length)
    (hids : ∀ i ∈ keep, i < s.inputIds.length) (haux : s.aux = []) :
    StateGathered keep (CandidatesLive model.config full.index.maxSeqLen (b + 1))
      (model.boundaryStep engram b layer stock part keep s)
      (model.plainStep engram b layer full s) := by
  -- the boundary produces the shared KV and the index
  have hkv : model.config.isKvSource b = true := by
    rw [Config.isKvSource, decide_eq_true_eq]
    exact ⟨hb.lt_numHiddenLayers, hb.kvSource.1⟩
  have hindexSource : model.config.isIndexSource b = true := by
    rw [Config.isIndexSource, decide_eq_true_eq]
    exact ⟨hb.lt_numHiddenLayers, hb.indexSource⟩
  -- candidate blocks come from the boundary or a later layer: none is there to be used
  have hnone : model.config.usesCandidates b = false := by
    rw [Config.usesCandidates, decide_eq_false_iff_not]
    rintro ⟨-, hnonneg, hlt⟩
    exact absurd (hb.candidate hnonneg) (not_le.mpr hlt)
  -- the production of the shared KV sees the same entries in both forwards
  have hproduce : ∀ xs, layer.produceKvFull stock s.positions xs s.memory
      = layer.produceKvFull full s.positions xs s.memory := by
    intro xs
    rw [DecoderLayer.produceKvFull, DecoderLayer.produceKvFull, hother, hindex]
  unfold DeepseekV4Model.plainStep DeepseekV4Model.boundaryStep
  dsimp only
  rw [pre_of_not_hasEngram engram layer (hasEngram_of_boundary hb le_rfl), hproduce]
  -- the rows that are kept, taken from the rows that went in
  have hxs : Gathers keep (gather (s.hidden.map layer.attnPre) keep)
      (s.hidden.map layer.attnPre) := by
    constructor
    case lt_length =>
      intro i hi
      rw [List.length_map]
      exact hhidden i hi
    case eq => rfl
  have hout := attnFfn_gathers layer model.config b
    (layer.produceKvFull full s.positions (s.hidden.map layer.attnPre) s.memory)
    (layer.produceKvFull full s.positions (s.hidden.map layer.attnPre) s.memory) s.memory
    (layer.produceKvFull full s.positions (s.hidden.map layer.attnPre) s.memory) true false hs hv
    ⟨hpositions, rfl⟩ ⟨hids, rfl⟩ hxs (by simp) (by rw [hkv]; rfl) rfl rfl
    (fun hno => by rw [hindexSource] at hno; cases hno)
    (fun huse => by rw [hnone] at huse; cases huse)
  refine captureAux_gathers ?_
  exact
    { hidden := hout.rows
      positions := ⟨hpositions, rfl⟩
      inputIds := ⟨hids, rfl⟩
      swa := hout.swa
      shared := hout.shared
      topk := hout.topk
      candidate := by
        intro hlive
        refine hout.candidate (Or.inr ?_)
        rcases live_or_published hb hm hb.lt_numHiddenLayers hlive with ⟨huse, -⟩ | hpublished
        · rw [hnone] at huse
          cases huse
        · exact hpublished
      aux := by rw [haux]; exact .nil }

variable (engram layers) in
/-- **All later layers** keep the relation. -/
theorem plainLoop_gathers (hb : Boundary model.config b) (hm : model.Fits)
    (hs : keep.Pairwise (· < ·)) {md md₂ : AttnMetadata F} (maxSeqLen : ℕ)
    (hv : ∀ k, b ≤ k → ViewGathered keep (md.view k) (md₂.view k))
    (hmax : ∀ k, (md₂.view k).index.maxSeqLen = maxSeqLen) (hbl : b < l)
    (hl : l + layers.length ≤ model.config.numHiddenLayers) {s s₂ : LayerState X V K R Y}
    (h : StateGathered keep (CandidatesLive model.config maxSeqLen l) s s₂) :
    StateGathered keep (CandidatesLive model.config maxSeqLen (l + layers.length))
      (model.plainLoop engram md l layers s) (model.plainLoop engram md₂ l layers s₂) := by
  induction layers generalizing l s s₂ with
  | nil => exact h
  | cons layer layers ih =>
    rw [List.length_cons] at hl
    -- the length of the context is the step's, whatever the layer
    have hstep := plainStep_gathers engram layer hb hm hs hbl (by omega)
      (hv l hbl.le) (by rw [hmax]; exact h)
    rw [hmax] at hstep
    have hrest := ih (by omega) (by omega) hstep
    rw [List.length_cons, ← Nat.add_assoc, Nat.add_right_comm]
    exact hrest

end Behind

/-! ### The number of rows -/

/-- Every row of a batch of `n` is present, and so is its row of the top-k
buffer. -/
structure HasRows (n : ℕ) (s : LayerState X V K R Y) : Prop where
  hidden : s.hidden.length = n
  positions : s.positions.length = n
  inputIds : s.inputIds.length = n
  topk : n ≤ s.memory.topk.length
  aux : ∀ stream ∈ s.aux, stream.length = n

section Length

variable {model : DeepseekV4Model F E A X V K B R Y} {engram : Option (List E)} {n l : ℕ}
  {layer : DecoderLayer F E A X V K B} {layers : List (DecoderLayer F E A X V K B)}
  {v : LayerView F} {s : LayerState X V K R Y}

theorem length_pre (hidden : List X)
    (hrows : ∀ rows, engram = some rows → hidden.length ≤ rows.length) :
    (layer.pre model.config l engram hidden).length = hidden.length := by
  unfold DecoderLayer.pre
  cases engram with
  | none => simp
  | some rows =>
    have := hrows rows rfl
    simp only
    split
    · rw [List.length_zipWith, Nat.min_eq_right this]
    · exact List.length_map ..

variable (model l layer v) in
theorem length_indexer_topk (rows : List (AttnRow A)) (m : Memory V K) :
    m.topk.length ≤ (layer.indexer model.config l v rows m).1.length := by
  unfold DecoderLayer.indexer
  split
  · exact le_rfl
  · split
    · exact length_le_overwrite _ _
    · exact length_le_overwrite _ _

theorem captureAux_memory : (model.captureAux l s).memory = s.memory := by
  unfold DeepseekV4Model.captureAux
  split <;> rfl

variable (model l layer v) in
/-- The top-k buffer never loses a row. -/
theorem length_attnFfn_topk (skip : Bool) (pos ids : List ℕ) (xs : List A) (m : Memory V K) :
    m.topk.length ≤ (layer.attnFfn model.config l v skip pos ids xs m).2.topk.length := by
  unfold DecoderLayer.attnFfn DecoderLayer.attn DecoderLayer.sparseAttn
  dsimp only
  refine le_trans ?_ (length_indexer_topk model l layer v _ _)
  split <;> exact le_rfl

variable (model engram l layer v s) in
theorem length_plainStep_topk :
    s.memory.topk.length ≤ (model.plainStep engram l layer v s).memory.topk.length := by
  unfold DeepseekV4Model.plainStep
  rw [captureAux_memory]
  exact length_attnFfn_topk model l layer v false s.positions s.inputIds _ s.memory

variable (model engram l layer s) in
theorem length_boundaryStep_topk (full decoder : LayerView F) (keepIdx : List ℕ) :
    s.memory.topk.length
      ≤ (model.boundaryStep engram l layer full decoder keepIdx s).memory.topk.length := by
  unfold DeepseekV4Model.boundaryStep
  rw [captureAux_memory]
  exact length_attnFfn_topk model l layer decoder true (gather s.positions keepIdx)
    (gather s.inputIds keepIdx) _ (layer.produceKvFull full s.positions _ s.memory)

variable (model engram l layers s) in
theorem length_plainLoop_topk (md : AttnMetadata F) :
    s.memory.topk.length ≤ (model.plainLoop engram md l layers s).memory.topk.length := by
  induction layers generalizing l s with
  | nil => exact le_rfl
  | cons layer layers ih => exact (length_plainStep_topk ..).trans (ih ..)

theorem captureAux_hasRows (h : HasRows n s) : HasRows n (model.captureAux l s) := by
  unfold DeepseekV4Model.captureAux
  split
  · refine { h with aux := ?_ }
    intro stream hmem
    rcases List.mem_append.mp hmem with hold | hnew
    · exact h.aux stream hold
    · obtain rfl := List.mem_singleton.mp hnew
      rw [List.length_map, List.length_map]
      exact h.hidden
  · exact h

/-- A layer returns a row for every row. -/
theorem plainStep_hasRows (hswa : v.swa.length = n) (hindex : v.index.rows.length = n)
    (hrows : ∀ rows, engram = some rows → n ≤ rows.length) (h : HasRows n s) :
    HasRows n (model.plainStep engram l layer v s) := by
  have hxs : (layer.pre model.config l engram s.hidden).length = n := by
    rw [length_pre _ (by rw [h.hidden]; exact hrows), h.hidden]
  refine captureAux_hasRows ?_
  -- whatever the indexer does, the buffer has a row for each row of the batch
  have htopk : ∀ m : Memory V K, m.topk = s.memory.topk → ∀ rows : List (AttnRow A),
      n ≤ (layer.indexer model.config l v rows m).1.length := by
    intro m hm rows
    have := length_indexer_topk model l layer v rows m
    rw [hm] at this
    exact h.topk.trans this
  -- producing the shared KV does not touch the index buffer
  have hkept : ∀ skip, (if model.config.isKvSource l && !skip then layer.produceKvFull v s.positions
      (layer.pre model.config l engram s.hidden) s.memory else s.memory).topk = s.memory.topk := by
    intro skip
    split <;> rfl
  constructor
  case hidden =>
    -- all lists that are combined row by row have `n` rows
    have := htopk _ (hkept false)
      (attnRows v s.positions (layer.pre model.config l engram s.hidden))
    unfold DecoderLayer.attnFfn DecoderLayer.attn DecoderLayer.sparseAttn
    simp only [List.length_zipWith, List.length_zip, attnRows, List.length_map, hswa, hindex, hxs,
      h.positions, h.inputIds] at this ⊢
    omega
  case positions => exact h.positions
  case inputIds => exact h.inputIds
  case topk => exact htopk _ (hkept false) _
  case aux => exact h.aux

theorem plainLoop_hasRows {md : AttnMetadata F} (hswa : ∀ k, (md.swa k).length = n)
    (hindex : ∀ k, (md.index k).rows.length = n)
    (hrows : ∀ rows, engram = some rows → n ≤ rows.length) (h : HasRows n s) :
    HasRows n (model.plainLoop engram md l layers s) := by
  induction layers generalizing l s with
  | nil => exact h
  | cons layer layers ih =>
    exact ih (plainStep_hasRows (hswa l) (hindex l) hrows h)

/-- Nothing is captured below the first layer an auxiliary stream is taken from. -/
theorem plainLoop_aux {md : AttnMetadata F}
    (h : ∀ t ∈ model.auxHiddenStateLayers, l + layers.length < t) :
    (model.plainLoop engram md l layers s).aux = s.aux := by
  induction layers generalizing l s with
  | nil => rfl
  | cons layer layers ih =>
    rw [DeepseekV4Model.plainLoop, ih fun t ht => by
      have := h t ht
      rw [List.length_cons] at this
      omega]
    -- layer `l` would capture for target `l + 1`, which is too low
    unfold DeepseekV4Model.plainStep DeepseekV4Model.captureAux
    dsimp only
    rw [if_neg fun hmem => by
      have := h _ hmem
      rw [List.length_cons] at this
      omega]

/-- The streams captured above the layer below `l`, if any are taken there, are
those of the rows that leave it. -/
def Captured (model : DeepseekV4Model F E A X V K B R Y) (l : ℕ)
    (s : LayerState X V K R Y) : Prop :=
  l ∈ model.auxHiddenStateLayers → s.finalAuxRecon = s.hidden.map model.mhcPost

theorem captured_captureAux : Captured model (l + 1) (model.captureAux l s) := by
  intro hmem
  unfold DeepseekV4Model.captureAux
  rw [if_pos hmem]

variable (engram layers) in
theorem plainLoop_captured (md : AttnMetadata F) (h : Captured model l s) :
    Captured model (l + layers.length) (model.plainLoop engram md l layers s) := by
  induction layers generalizing l s with
  | nil => exact h
  | cons layer layers ih =>
    rw [List.length_cons, ← Nat.add_assoc, Nat.add_right_comm]
    exact ih captured_captureAux

end Length

/-! ### Both forwards without their bookkeeping -/

section Scattered

variable {α : Type} [Zero α] {step : StepPlan F} {rows buf : List α}

/-- What `_scatter` returns. -/
def StepPlan.scattered (step : StepPlan F) (rows : List α) : List α :=
  indexCopy (List.replicate step.numRows 0) step.keepIdx rows

/-- What `scatter_rows_into` leaves in the buffer. -/
def StepPlan.scatteredInto (step : StepPlan F) (buf rows : List α) : List α :=
  indexCopy (overwrite buf 0 (List.replicate step.numRows 0)) step.keepIdx rows

theorem StepPlan.scatter_eq (hlen : rows.length = step.keepIdx.length)
    (hkeep : ∀ i ∈ step.keepIdx, i < step.numRows) :
    step.scatter rows = .ok (step.scattered rows) :=
  indexCopyInto_eq hlen (by rwa [List.length_replicate])

theorem StepPlan.scatterRowsInto_eq (hlen : rows.length = step.keepIdx.length)
    (hkeep : ∀ i ∈ step.keepIdx, i < step.numRows) (hbuf : step.numRows ≤ buf.length) :
    step.scatterRowsInto buf rows = .ok (step.scatteredInto buf rows) := by
  unfold StepPlan.scatterRowsInto
  rw [Nat.min_eq_left hbuf]
  refine indexCopyInto_eq hlen fun i hi => ?_
  exact ((hkeep i hi).trans_le hbuf).trans_le (length_le_overwrite _ _)

theorem storeMtp_none {mtp : Option (List α)}
    (h : ∀ buf, mtp = some buf → rows.length ≤ buf.length) :
    storeMtp (F := F) none rows mtp = .ok (mtp.map fun buf => overwrite buf 0 rows) := by
  cases mtp with
  | none => rfl
  | some buf => exact if_pos (h buf rfl)

theorem storeMtp_some {plan : RunningPlan F} {mtp : Option (List α)}
    (hlen : rows.length = plan.keepIdx.length) (hkeep : ∀ i ∈ plan.keepIdx, i < plan.numRows)
    (h : ∀ buf, mtp = some buf → plan.numRows ≤ buf.length) :
    storeMtp (some plan) rows mtp = .ok (mtp.map fun buf => plan.scatteredInto buf rows) := by
  cases mtp with
  | none => rfl
  | some buf =>
    unfold storeMtp
    dsimp only
    rw [StepPlan.scatterRowsInto_eq hlen hkeep (h buf rfl)]
    rfl

/-- `finish` where every stream has a row for each kept one. -/
theorem finish_eq {plan : RunningPlan F} {hidden : List α} {mtp : Option (List R)}
    {s : LoopState F X V K R α} (hhidden : hidden.length = plan.keepIdx.length)
    (haux : ∀ stream ∈ s.aux, stream.length = plan.keepIdx.length)
    (hkeep : ∀ i ∈ plan.keepIdx, i < plan.numRows) :
    plan.finish hidden mtp s = .ok
      ({ hidden := plan.scattered hidden, aux := s.aux.map plan.scattered },
        { memory := s.memory
          fc := { s.fc with attnMetadata := plan.fullMetadata, dsv41Yoco := some plan.toStepPlan }
          skipKv := if plan.attn.isSome then none else s.skipKv
          mtpHiddenBuffer := mtp }) := by
  have hstreams : s.aux.mapM plan.scatter = .ok (s.aux.map plan.scattered) := by
    rw [Fallible.mapM_eq_ok, List.forall₂_map_right_iff, List.forall₂_same]
    exact fun stream hmem => StepPlan.scatter_eq (haux stream hmem) hkeep
  unfold RunningPlan.finish
  rw [StepPlan.scatter_eq hhidden hkeep, hstreams]
  rfl

end Scattered

namespace DeepseekV4Model

variable {model : DeepseekV4Model F E A X V K B R Y}

/-- The state the layers start from. -/
def start (rows : Inputs E X) (memory : Memory V K) : LayerState X V K R Y where
  hidden := rows.hidden
  positions := rows.positions
  inputIds := rows.inputIds
  memory := memory
  aux := []
  finalAuxRecon := []

variable (model) in
/-- The rows before the last norm. -/
def recon (s : LayerState X V K R Y) : List R :=
  if model.layers.length ∈ model.auxHiddenStateLayers then s.finalAuxRecon
  else s.hidden.map model.mhcPost

/-- A stream captured above the last layer is used again, which changes nothing. -/
theorem recon_eq {s : LayerState X V K R Y} (h : Captured model model.layers.length s) :
    model.recon s = s.hidden.map model.mhcPost := by
  unfold recon
  split
  · next hmem => exact h hmem
  · rfl

variable (model) in
/-- A forward without a plan. -/
theorem forward_plain [Zero R] [Zero Y] (rows : Inputs E X) (st : Served F V K R)
    (hskip : st.skipKv = none) (hplan : st.fc.dsv41Yoco = none) {s : LayerState X V K R Y}
    (hs : model.plainLoop rows.engram st.fc.attnMetadata 0 model.layers
      (start rows st.memory) = s)
    (hmtp : ∀ buf, st.mtpHiddenBuffer = some buf → (model.recon s).length ≤ buf.length) :
    model.forward rows st = .ok
      ({ hidden := List.zipWith model.collapse (model.recon s) s.hidden, aux := s.aux },
        { memory := s.memory
          fc := st.fc
          skipKv := none
          mtpHiddenBuffer :=
            st.mtpHiddenBuffer.map fun buf => overwrite buf 0 (model.recon s) }) := by
  -- without a plan nothing is begun
  have hbegin : begin st.fc rows.positions = .ok none := by
    unfold begin
    rw [hplan]
  have hloop := loop_plain model rows.engram model.layers (l := 0)
    (s := { start rows st.memory with fc := st.fc, plan := none, skipKv := none }) rfl
    (fun step h => by cases h)
  dsimp only at hloop
  rw [hs] at hloop
  -- name the state the loop starts from, so that the equation of the loop applies
  unfold forward
  rw [hbegin, hskip]
  change model.loop rows.engram 0 model.layers
    { start rows st.memory with fc := st.fc, plan := none, skipKv := none } >>= _ = _
  rw [hloop]
  change storeMtp none (model.recon s) st.mtpHiddenBuffer >>= _ = _
  rw [storeMtp_none hmtp]
  rfl

/-- The layers of a truncated forward: the encoder on all rows, the boundary, the
rest on the kept rows. -/
def truncatedLoop (model : DeepseekV4Model F E A X V K B R Y) (stock decoder : AttnMetadata F)
    (keepIdx : List ℕ) (b : ℕ) (boundary : DecoderLayer F E A X V K B) (rows : Inputs E X)
    (memory : Memory V K) : LayerState X V K R Y :=
  model.plainLoop rows.engram decoder (b + 1) (model.layers.drop (b + 1))
    (model.boundaryStep rows.engram b boundary (stock.view b) (decoder.view b) keepIdx
      (model.plainLoop rows.engram stock 0 (model.layers.take b) (start rows memory)))

variable (model) in
theorem length_truncatedLoop_topk (stock decoder : AttnMetadata F) (keepIdx : List ℕ) (b : ℕ)
    (boundary : DecoderLayer F E A X V K B) (rows : Inputs E X) (memory : Memory V K) :
    memory.topk.length
      ≤ (model.truncatedLoop stock decoder keepIdx b boundary rows memory).memory.topk.length := by
  have hencoder := length_plainLoop_topk model rows.engram 0 (model.layers.take b)
    (start rows memory) stock
  refine hencoder.trans (le_trans ?_ (length_plainLoop_topk ..))
  exact length_boundaryStep_topk ..

/-- The loop of a forward that has begun a plan for the rows of the step. -/
theorem loop_hooked (rows : Inputs E X) (memory : Memory V K) (fc : ForwardContext F)
    (running : RunningPlan F) {layer : DecoderLayer F E A X V K B}
    (hlayer : model.layers[running.boundary]? = some layer)
    (hkeep : ∀ i ∈ running.keepIdx, i < running.numRows)
    (hengram : ∀ grams, rows.engram = some grams → running.numRows ≤ grams.length)
    (hstate : HasRows running.numRows (model.plainLoop rows.engram fc.attnMetadata 0
      (model.layers.take running.boundary) (start rows memory))) :
    ∃ plan : RunningPlan F, plan.toStepPlan = running.toStepPlan ∧
      plan.fullMetadata = running.fullMetadata ∧ plan.attn = some running.boundary ∧
      model.loop rows.engram 0 model.layers
          { start rows memory with fc := fc, plan := some running, skipKv := none }
        = .ok
          { model.truncatedLoop fc.attnMetadata running.decoderMetadata running.keepIdx
              running.boundary layer rows memory with
            fc := { fc with attnMetadata := running.decoderMetadata, dsv41Yoco := none }
            plan := some plan
            skipKv := none } := by
  obtain ⟨hlt, hget⟩ := List.getElem?_eq_some_iff.mp hlayer
  -- the encoder, the boundary layer and the rest
  have hsplit : model.layers = model.layers.take running.boundary ++
      layer :: model.layers.drop (running.boundary + 1) := by
    rw [← hget, List.getElem_cons_drop, List.take_append_drop]
  have hlen : (model.layers.take running.boundary).length = running.boundary := by
    rw [List.length_take]
    omega
  have hencoder := loop_plain model rows.engram (model.layers.take running.boundary) (l := 0)
    (s := { start rows memory with fc := fc, plan := some running, skipKv := none }) rfl
    (fun p h => by
      obtain rfl := Option.some.inj h
      right
      omega)
  let encoder := model.plainLoop rows.engram fc.attnMetadata 0
    (model.layers.take running.boundary) (start rows memory)
  refine ⟨{ running with
    positions := some (gather encoder.positions running.keepIdx)
    inputIds := some (gather encoder.inputIds running.keepIdx)
    attn := some running.boundary }, rfl, rfl, rfl, ?_⟩
  conv_lhs => rw [hsplit, loop_append, hencoder, hlen, Nat.zero_add]
  change model.loop rows.engram running.boundary _ _ = _
  -- the boundary layer, which finds every row that is kept
  have hxs : ∀ i ∈ running.keepIdx,
      i < (layer.pre model.config running.boundary rows.engram encoder.hidden).length := by
    rw [length_pre _ (by rw [hstate.hidden]; exact hengram), hstate.hidden]
    exact hkeep
  rw [loop, round_boundary running rfl rfl rfl hxs (by rwa [hstate.positions])
    (by rwa [hstate.inputIds])]
  change model.loop rows.engram (running.boundary + 1) _ _ = _
  -- the decoder, whose layers the plan no longer concerns
  rw [loop_plain _ _ _ rfl (fun p h => by
    left
    obtain rfl := Option.some.inj h
    exact Nat.lt_succ_self _)]
  rfl

variable (model) in
/-- A forward with a plan of its own number of rows that has not been used: every row it
reads or writes is there. -/
theorem forward_hooked [Zero R] [Zero Y] (rows : Inputs E X) (st : Served F V K R)
    (step : StepPlan F) (hskip : st.skipKv = none) (hplan : st.fc.dsv41Yoco = some step)
    (hgraph : st.fc.cudagraph = false) (hrows : rows.positions.length = step.numRows)
    (hused : step.used = false) {layer : DecoderLayer F E A X V K B}
    (hlayer : model.layers[step.boundary]? = some layer) {s : LayerState X V K R Y}
    (hs : model.truncatedLoop st.fc.attnMetadata step.decoderMetadata step.keepIdx step.boundary
      layer rows st.memory = s)
    (hkeep : ∀ i ∈ step.keepIdx, i < step.numRows)
    (hengram : ∀ grams, rows.engram = some grams → step.numRows ≤ grams.length)
    (hstate : HasRows step.numRows (model.plainLoop rows.engram st.fc.attnMetadata 0
      (model.layers.take step.boundary) (start rows st.memory)))
    (hhidden : s.hidden.length = step.keepIdx.length)
    (hrecon : (model.recon s).length = step.keepIdx.length)
    (haux : ∀ stream ∈ s.aux, stream.length = step.keepIdx.length)
    (hmtp : ∀ buf, st.mtpHiddenBuffer = some buf → step.numRows ≤ buf.length) :
    model.forward rows st = .ok
      ({ hidden := step.scattered (List.zipWith model.collapse (model.recon s) s.hidden)
         aux := s.aux.map step.scattered },
        { memory := s.memory
          fc := { st.fc with dsv41Yoco := some { step with used := true } }
          skipKv := none
          mtpHiddenBuffer := st.mtpHiddenBuffer.map fun buf =>
            step.scatteredInto buf (model.recon s) }) := by
  -- the plan is marked as used and begun
  have hbegin : begin st.fc rows.positions = .ok (some
      { toStepPlan := { step with used := true }, fullMetadata := st.fc.attnMetadata
        positions := none, inputIds := none, attn := none }) := by
    unfold begin
    rw [hplan]
    simp only [hgraph, hused, Bool.false_eq_true, if_false, hrows, ne_eq, not_true_eq_false]
  -- the loop runs plainly to the boundary and truncated from there on
  obtain ⟨plan, hstep, hfull, hattn, hloop⟩ := loop_hooked rows st.memory st.fc
    { toStepPlan := { step with used := true }, fullMetadata := st.fc.attnMetadata
      positions := none, inputIds := none, attn := none } hlayer hkeep hengram hstate
  rw [hs] at hloop
  unfold forward
  rw [hbegin, hskip]
  change model.loop rows.engram 0 model.layers
    { start rows st.memory with fc := st.fc, plan := some _, skipKv := none } >>= _ = _
  -- the plan that leaves the loop is the one that was begun, with the rows it kept
  obtain ⟨spent, full, positions, inputIds, attn⟩ := plan
  obtain rfl : spent = { step with used := true } := hstep
  obtain rfl : full = st.fc.attnMetadata := hfull
  obtain rfl : attn = some step.boundary := hattn
  rw [hloop]
  change storeMtp (some _) (model.recon s) st.mtpHiddenBuffer >>= _ = _
  rw [storeMtp_some hrecon hkeep hmtp]
  -- the collapsed rows and the auxiliary streams have a row for each kept one
  have hcollapsed : (List.zipWith model.collapse (model.recon s) s.hidden).length
      = step.keepIdx.length := by
    rw [List.length_zipWith, hrecon, hhidden, Nat.min_self]
  change RunningPlan.finish _ (List.zipWith model.collapse (model.recon s) s.hidden) _ _ = _
  rw [finish_eq hcollapsed haux hkeep]
  rfl

end DeepseekV4Model

/-! ### The context of a step -/

section Context

variable {d : Deployment} {b : ℕ} {inp : StepInputs F} {graph : Bool}

/-- The rows of a step that the decoder runs on. -/
def keptRows (keep : ℕ) (batch : Batch) : List ℕ :=
  if needEager keep batch then (plan keep batch).keepIdx
  else List.range (positions batch).length

/-- A step with a prefill longer than `KEEP` runs eager, with a plan. -/
theorem stepContext_of_needEager (h : needEager d.keep inp.batch = true) :
    stepContext d b inp graph = .ok
      { attnMetadata := fullMetadata d inp
        dsv41Yoco := some
          { keepIdx := (plan d.keep inp.batch).keepIdx
            numRows := inp.numRows
            boundary := b
            decoderMetadata := decoderMetadata d b inp (plan d.keep inp.batch)
            used := false }
        cudagraph := false } := by
  -- only a prefill makes a step eager
  -- so the plan is built
  have hprefill : inp.batch.any (·.isPrefilling) = true := by
    unfold needEager at h
    by_contra hne
    rw [if_pos (by rw [Bool.not_eq_true'] ; exact Bool.eq_false_of_not_eq_true hne)] at h
    cases h
  have hgraph : (graph && !needEager d.keep inp.batch) = false := by
    rw [h, Bool.not_true, Bool.and_false]
  have hplan : (plan d.keep inp.batch).needed = true := plan_needed_eq_needEager.trans h
  unfold stepContext attachPlan
  rw [hgraph, buildKeepPlan_arrays]
  simp only [hprefill, hplan, Bool.or_self, Bool.not_true, Bool.false_eq_true, if_false]
  rfl

/-- Any other step keeps the stock metadata. -/
theorem stepContext_of_not_needEager (h : needEager d.keep inp.batch = false) :
    stepContext d b inp graph = .ok
      { attnMetadata := fullMetadata d inp, dsv41Yoco := none, cudagraph := graph } := by
  have hgraph : (graph && !needEager d.keep inp.batch) = graph := by
    rw [h, Bool.not_false, Bool.and_true]
  have hplan : (plan d.keep inp.batch).needed = false := plan_needed_eq_needEager.trans h
  unfold stepContext attachPlan
  rw [hgraph, buildKeepPlan_arrays]
  simp only [hplan, Bool.not_false, if_true]
  split <;> rfl

/-- Without a prefill longer than `KEEP` nothing is masked. -/
theorem maskStep_of_not_needEager {keep window width : ℕ} {batch : Batch}
    (h : needEager keep batch = false) : maskStep window width keep batch
      = (List.range (positions batch).length).map (fullRow window width batch) := by
  refine List.ext_getElem? fun f => ?_
  rcases Nat.lt_or_ge f (positions batch).length with hf | hf
  · obtain ⟨i, hi, t, ht, rfl⟩ := exists_full_segment hf
    have hplan := rowPlan_of_plan_not_needed (plan_needed_eq_needEager.trans h) hi
    -- nothing is cut off below any row of the request
    have hlb : (req batch i).maskLower keep = 0 := by rw [← BatchReq.rowPlan_lb, hplan]
    rw [maskStep_getElem? hi ht, List.getElem?_map, List.getElem?_range hf, Option.map_some,
      fullRow_eq hi ht hlb]
  · rw [List.getElem?_eq_none (by rwa [length_maskStep]), List.getElem?_eq_none (by simpa using hf)]

theorem maskContext_of_not_needEager (h : needEager d.keep inp.batch = false) :
    maskContext d b inp graph
      = { attnMetadata := fullMetadata d inp, dsv41Yoco := none, cudagraph := graph } := by
  -- the layers differ in their block tables, which the plan does not read
  have hbatch : ∀ l, needEager d.keep (inp.batch.withTables (inp.swaTable l)) = false := by
    intro l
    rw [← plan_needed_eq_needEager, plan_withTables, plan_needed_eq_needEager, h]
  have hswa : (fun l => if b ≤ l then maskStep d.window d.width d.keep
      (inp.batch.withTables (inp.swaTable l)) else (fullMetadata d inp).swa l)
      = (fullMetadata d inp).swa := by
    funext l
    rw [maskStep_of_not_needEager (hbatch l), positions_withTables]
    exact ite_self _
  unfold maskContext
  rw [hswa]
  rfl

theorem length_fullMetadata (d : Deployment) (inp : StepInputs F) (l : ℕ) :
    ((fullMetadata d inp).swa l).length = inp.numRows ∧
    ((fullMetadata d inp).index l).rows.length = inp.numRows := by
  simp [fullMetadata]

theorem length_maskContext (l : ℕ) :
    ((maskContext d b inp graph).attnMetadata.swa l).length = inp.numRows ∧
      ((maskContext d b inp graph).attnMetadata.index l).rows.length = inp.numRows := by
  refine ⟨?_, (length_fullMetadata d inp l).2⟩
  change (if b ≤ l then _ else _ : List DecoderRow).length = _
  split
  · rw [length_maskStep, positions_withTables]
    rfl
  · exact (length_fullMetadata d inp l).1

/-- **The row a request samples from** is always kept: it is its last one. -/
theorem last_mem_keptRows (keep : ℕ) {batch : Batch} {i : ℕ} (hi : i < batch.length) :
    rowStart batch (i + 1) - 1 ∈ keptRows keep batch := by
  -- the last row of the request comes before the start of the next one
  have hpos := (req batch i).numRows_pos
  have hnext : rowStart batch (i + 1) ≤ rowStart batch batch.length :=
    prefixSum_le_prefixSum _ hi
  unfold keptRows
  split
  -- the kept rows of a request are a suffix of its rows, and not empty
  · have hcut := (req batch i).first_lt keep
    refine List.mem_of_getElem? (i := keptStart keep batch i + ((req batch i).numKept keep - 1)) ?_
    rw [plan_keepIdx_getElem? hi (Nat.sub_one_lt_of_lt BatchReq.numKept_pos), rowStart_succ,
      Option.some.injEq]
    unfold BatchReq.numKept
    omega
  · rw [List.mem_range, length_positions]
    rw [rowStart_succ] at hnext ⊢
    omega

end Context

/-! ### The truncated forward is the masked forward -/

/-- The rows of a truncated forward: those of the reference where a row was
kept, zero elsewhere. -/
structure RowsKept {α : Type} [Zero α] (n : ℕ) (kept : List ℕ) (rows ref : List α) : Prop where
  length : rows.length = n
  row : ∀ f < n, rows[f]? = if f ∈ kept then ref[f]? else some 0

/-- The buffer of the drafter's hidden states: as `RowsKept` on the rows of the
step, untouched behind them. -/
def BufferKept {α : Type} [Zero α] (n : ℕ) (kept : List ℕ) (buf ref : List α) : Prop :=
  ∀ f, buf[f]? = if f < n ∧ f ∉ kept then some 0 else ref[f]?

section Scatter

variable {α : Type} [Zero α] {step : StepPlan F} {rows ref buf : List α}

theorem scatter_kept (hs : step.keepIdx.Pairwise (· < ·))
    (hlt : ∀ i ∈ step.keepIdx, i < step.numRows) (h : Gathers step.keepIdx rows ref) :
    RowsKept step.numRows step.keepIdx (step.scattered rows) ref := by
  have hzero : (List.replicate step.numRows (0 : α)).length = step.numRows := List.length_replicate
  constructor
  case length => rw [StepPlan.scattered, length_indexCopy, hzero]
  case row =>
    intro f hf
    rw [StepPlan.scattered, h.eq, getElem?_indexCopy_gather (hs.imp Nat.ne_of_lt) h.lt_length
      (by rw [hzero]; exact hlt), List.getElem?_replicate, if_pos hf]

theorem scatterRowsInto_kept (hs : step.keepIdx.Pairwise (· < ·))
    (hlt : ∀ i ∈ step.keepIdx, i < step.numRows) (h : Gathers step.keepIdx rows ref)
    (hlen : ref.length = step.numRows) :
    BufferKept step.numRows step.keepIdx (step.scatteredInto buf rows) (overwrite buf 0 ref) := by
  have hzero : (List.replicate step.numRows (0 : α)).length = step.numRows := List.length_replicate
  intro f
  rw [StepPlan.scatteredInto, h.eq, overwrite_zero, overwrite_zero, hzero, hlen,
    getElem?_indexCopy_gather (hs.imp Nat.ne_of_lt) h.lt_length (by
      intro i hi
      rw [List.length_append, hzero]
      exact (hlt i hi).trans_le (Nat.le_add_right _ _))]
  -- within the rows of the step, then behind them
  by_cases hf : f < step.numRows
  -- a kept row is overwritten, the others are zero
  · rw [List.getElem?_append_left (by omega), List.getElem?_append_left (by omega),
      List.getElem?_replicate, if_pos hf]
    by_cases hmem : f ∈ step.keepIdx
    · rw [if_pos hmem, if_neg fun hno => hno.2 hmem]
    · rw [if_neg hmem, if_pos ⟨hf, hmem⟩]
  · -- behind the rows of the step nothing is listed
    have hmem : f ∉ step.keepIdx := fun hmem => hf (hlt f hmem)
    rw [if_neg hmem, if_neg fun hlt => hf hlt.1, List.getElem?_append_right (by omega),
      List.getElem?_append_right (by omega), hzero, hlen]

end Scatter

/-- What a truncated forward owes the masked one when it kept the rows `kept` of
its `n` rows. -/
structure AsMasked [Zero R] [Zero Y] (n : ℕ) (kept : List ℕ) (stock : AttnMetadata F)
    (out ref : Outputs Y × Served F V K R) : Prop where
  /-- The sliding-window caches of all layers and the shared KV. -/
  caches : out.2.memory.swa = ref.2.memory.swa ∧ out.2.memory.shared = ref.2.memory.shared
  /-- The hidden states the logits are computed from. -/
  hidden : RowsKept n kept out.1.hidden ref.1.hidden
  /-- The auxiliary streams for the drafter. -/
  aux : List.Forall₂ (RowsKept n kept) out.1.aux ref.1.aux
  mtp : Option.Rel (BufferKept n kept) out.2.mtpHiddenBuffer ref.2.mtpHiddenBuffer
  /-- The forward context and the boundary's attention are as they were found. -/
  restored : out.2.fc.attnMetadata = stock ∧ out.2.skipKv = none
  /-- A plan is used up. -/
  spent : ∀ step, out.2.fc.dsv41Yoco = some step → step.used = true

/-- The buffers that outlive a forward have room for `n` rows. -/
structure Served.Holds (n : ℕ) (st : Served F V K R) : Prop where
  topk : n ≤ st.memory.topk.length
  mtp : ∀ buf, st.mtpHiddenBuffer = some buf → n ≤ buf.length

theorem Served.Holds.of_le {n m : ℕ} {st : Served F V K R} (h : st.Holds n) (hle : m ≤ n) :
    st.Holds m :=
  ⟨hle.trans h.topk, fun buf hbuf => hle.trans (h.mtp buf hbuf)⟩

/-- Buffers that lose no row. -/
theorem Served.Holds.of_map {m : ℕ} {st st' : Served F V K R} (h : st.Holds m)
    (htopk : st.memory.topk.length ≤ st'.memory.topk.length) {f : List R → List R}
    (hmtp : st'.mtpHiddenBuffer = st.mtpHiddenBuffer.map f)
    (hf : ∀ buf, buf.length ≤ (f buf).length) : st'.Holds m where
  topk := h.topk.trans htopk
  mtp := by
    intro buf hbuf
    rw [hmtp, Option.map_eq_some_iff] at hbuf
    obtain ⟨old, hold, rfl⟩ := hbuf
    exact (h.mtp old hold).trans (hf old)

/-- The rows a step feeds to the model: one for each scheduled token. -/
structure StepInputs.Feeds (inp : StepInputs F) (rows : DeepseekV4Model.Inputs E X) : Prop where
  hidden : rows.hidden.length = inp.numRows
  positions : rows.positions = positions inp.batch
  inputIds : rows.inputIds.length = inp.numRows
  engram : ∀ grams, rows.engram = some grams → inp.numRows ≤ grams.length

section Main

variable {model : DeepseekV4Model F E A X V K B R Y} {d : Deployment} {b : ℕ}
  {inp : StepInputs F} {rows : DeepseekV4Model.Inputs E X} {st : Served F V K R}

theorem start_hasRows (hrows : inp.Feeds rows) {memory : Memory V K}
    (htopk : inp.numRows ≤ memory.topk.length) :
    HasRows (R := R) (Y := Y) inp.numRows (DeepseekV4Model.start rows memory) :=
  ⟨hrows.hidden, by rw [DeepseekV4Model.start, hrows.positions]; rfl, hrows.inputIds, htopk,
    fun _ hmem => absurd hmem List.not_mem_nil⟩

theorem captured_start (rows : DeepseekV4Model.Inputs E X) (memory : Memory V K)
    (hb : Boundary model.config b) (hm : model.Fits) :
    Captured model 0 (DeepseekV4Model.start rows memory) := by
  intro hmem
  exact absurd (hb.dsparkTarget 0 (hm.aux 0 hmem)) (Nat.not_lt_zero b)

variable (model d b) in
/-- The layers of the masked forward. -/
theorem maskLoop_hasRows (hrows : inp.Feeds rows) {memory : Memory V K}
    (htopk : inp.numRows ≤ memory.topk.length) (graph : Bool)
    (layers : List (DecoderLayer F E A X V K B)) :
    HasRows inp.numRows (model.plainLoop rows.engram (maskContext d b inp graph).attnMetadata 0
      layers (DeepseekV4Model.start rows memory)) :=
  plainLoop_hasRows (fun k => (length_maskContext k).1) (fun k => (length_maskContext k).2)
    hrows.engram (start_hasRows hrows htopk)

/-- **The layers of a truncated forward** leave the kept rows of the masked one. -/
theorem truncatedLoop_gathers (hb : Boundary model.config b) (hm : model.Fits)
    (hrows : inp.Feeds rows) {memory : Memory V K} (htopk : inp.numRows ≤ memory.topk.length)
    (graph : Bool) {layer : DecoderLayer F E A X V K B} (hlayer : model.layers[b]? = some layer) :
    StateGathered (plan d.keep inp.batch).keepIdx
      (CandidatesLive model.config inp.maxSeqLen model.layers.length)
      (model.truncatedLoop (fullMetadata d inp) (decoderMetadata d b inp (plan d.keep inp.batch))
        (plan d.keep inp.batch).keepIdx b layer rows memory)
      (model.plainLoop rows.engram (maskContext d b inp graph).attnMetadata 0 model.layers
        (DeepseekV4Model.start rows memory)) := by
  obtain ⟨hlt, hget⟩ := List.getElem?_eq_some_iff.mp hlayer
  -- the layers below the boundary, the boundary and those behind it
  have hsplit : model.layers = model.layers.take b ++ layer :: model.layers.drop (b + 1) := by
    rw [← hget, List.getElem_cons_drop, List.take_append_drop]
  have hlen : (model.layers.take b).length = b := by
    rw [List.length_take]
    omega
  have hdrop : b + 1 + (model.layers.drop (b + 1)).length = model.layers.length := by
    rw [List.length_drop]
    omega
  -- below the boundary the two forwards see the same metadata
  have hencoder : model.plainLoop rows.engram (maskContext d b inp graph).attnMetadata 0
      (model.layers.take b) (DeepseekV4Model.start rows memory)
      = model.plainLoop rows.engram (fullMetadata d inp) 0 (model.layers.take b)
        (DeepseekV4Model.start rows memory) := by
    refine DeepseekV4Model.plainLoop_congr fun k _ hk => maskContext_view graph ?_
    omega
  -- the masked forward goes on behind the boundary as it is
  have hmask : model.plainLoop rows.engram (maskContext d b inp graph).attnMetadata 0 model.layers
      (DeepseekV4Model.start rows memory)
      = model.plainLoop rows.engram (maskContext d b inp graph).attnMetadata (b + 1)
        (model.layers.drop (b + 1)) (model.plainStep rows.engram b layer
          ((maskContext d b inp graph).attnMetadata.view b)
          (model.plainLoop rows.engram (fullMetadata d inp) 0 (model.layers.take b)
            (DeepseekV4Model.start rows memory))) := by
    conv_lhs => rw [hsplit, DeepseekV4Model.plainLoop_append, hlen, Nat.zero_add, hencoder]
    rfl
  have hstate := maskLoop_hasRows model d b hrows htopk graph (model.layers.take b)
  rw [hencoder] at hstate
  -- no auxiliary stream is taken from the encoder
  have haux : (model.plainLoop rows.engram (fullMetadata d inp) 0 (model.layers.take b)
      (DeepseekV4Model.start rows memory)).aux = [] := by
    refine plainLoop_aux fun t ht => ?_
    have := hb.dsparkTarget t (hm.aux t ht)
    omega
  -- the kept rows are rows of the step
  have hmem : ∀ f ∈ (plan d.keep inp.batch).keepIdx, f < inp.numRows := fun f hf =>
    plan_keepIdx_lt hf
  have hboundary := boundaryStep_gathers rows.engram layer hb hm plan_keepIdx_increasing
    ((fullMetadata d inp).view b) (view_gathered d inp graph le_rfl) rfl rfl
    (by rw [hstate.hidden]; exact hmem) (by rw [hstate.positions]; exact hmem)
    (by rw [hstate.inputIds]; exact hmem) haux
  have hrest := plainLoop_gathers rows.engram (model.layers.drop (b + 1)) hb hm
    plan_keepIdx_increasing inp.maxSeqLen (fun k hk => view_gathered d inp graph hk)
    (fun _ => rfl) (Nat.lt_succ_self b) (by rw [hdrop, hm.layers]) hboundary
  rw [hdrop] at hrest
  rw [hmask]
  exact hrest

/-- The rows of both forwards are collapsed from the streams that leave the last
layer. -/
theorem plainLoop_recon (hb : Boundary model.config b) (hm : model.Fits) (md : AttnMetadata F)
    {memory : Memory V K} {s : LayerState X V K R Y} (hs : model.plainLoop rows.engram md 0
      model.layers (DeepseekV4Model.start rows memory) = s) :
    model.recon s = s.hidden.map model.mhcPost := by
  have hcap := plainLoop_captured rows.engram model.layers md
    (captured_start rows memory hb hm)
  rw [Nat.zero_add, hs] at hcap
  exact DeepseekV4Model.recon_eq hcap

theorem truncatedLoop_recon (hlt : b < model.layers.length) (stock decoder : AttnMetadata F)
    (keep : List ℕ) {layer : DecoderLayer F E A X V K B} {memory : Memory V K}
    {s : LayerState X V K R Y}
    (hs : model.truncatedLoop stock decoder keep b layer rows memory = s) :
    model.recon s = s.hidden.map model.mhcPost := by
  have hdrop : b + 1 + (model.layers.drop (b + 1)).length = model.layers.length := by
    rw [List.length_drop]
    omega
  have hcap : Captured model model.layers.length
      (model.truncatedLoop stock decoder keep b layer rows memory) := by
    rw [← hdrop]
    exact plainLoop_captured rows.engram (model.layers.drop (b + 1)) decoder captured_captureAux
  rw [hs] at hcap
  exact DeepseekV4Model.recon_eq hcap

/-- A step with a prefill longer than `KEEP`. -/
theorem forward_of_needEager [Zero R] [Zero Y] (hb : Boundary model.config b) (hm : model.Fits)
    (hrows : inp.Feeds rows) (hskip : st.skipKv = none) (hholds : st.Holds inp.numRows)
    (graph : Bool) (h : needEager d.keep inp.batch = true) :
    ∃ fc out ref, stepContext d b inp graph = .ok fc ∧
      model.forward rows { st with fc := fc } = .ok out ∧
      model.forward rows { st with fc := maskContext d b inp graph } = .ok ref ∧
      AsMasked inp.numRows (keptRows d.keep inp.batch) (fullMetadata d inp) out ref ∧
      ∀ m, st.Holds m → out.2.Holds m := by
  -- the boundary is one of the layers
  have hlt : b < model.layers.length := by
    rw [hm.layers]
    exact hb.lt_numHiddenLayers
  have hlayer := List.getElem?_eq_getElem hlt
  have hpos : rows.positions.length = inp.numRows := by
    rw [hrows.positions]
    rfl
  -- what `attach` puts beside the metadata
  let step : StepPlan F :=
    { keepIdx := (plan d.keep inp.batch).keepIdx
      numRows := inp.numRows
      boundary := b
      decoderMetadata := decoderMetadata d b inp (plan d.keep inp.batch)
      used := false }
  -- both loops, under one name each
  obtain ⟨s, hs⟩ : ∃ s, model.truncatedLoop (fullMetadata d inp) step.decoderMetadata step.keepIdx b
    model.layers[b] rows st.memory = s := ⟨_, rfl⟩
  obtain ⟨s₂, hs₂⟩ : ∃ s₂, model.plainLoop rows.engram (maskContext d b inp graph).attnMetadata 0
    model.layers (DeepseekV4Model.start rows st.memory) = s₂ := ⟨_, rfl⟩
  have hg := truncatedLoop_gathers (d := d) hb hm hrows hholds.topk graph hlayer
  rw [hs, hs₂] at hg
  have hstate := maskLoop_hasRows model d b hrows hholds.topk graph model.layers
  rw [hs₂] at hstate
  have hmem : ∀ f ∈ step.keepIdx, f < step.numRows := fun f hf => plan_keepIdx_lt hf
  have hsorted : step.keepIdx.Pairwise (· < ·) := plan_keepIdx_increasing
  have hrecon := truncatedLoop_recon hlt _ _ _ hs
  have hrecon₂ := plainLoop_recon hb hm _ hs₂
  -- the truncated forward has every row that it reads and room for every row it writes
  have hencoder : HasRows inp.numRows (model.plainLoop rows.engram (fullMetadata d inp) 0
      (model.layers.take b) (DeepseekV4Model.start rows st.memory)) :=
    plainLoop_hasRows (fun k => (length_fullMetadata d inp k).1)
      (fun k => (length_fullMetadata d inp k).2) hrows.engram (start_hasRows hrows hholds.topk)
  -- the auxiliary streams hold the kept rows
  have haux : ∀ stream ∈ s.aux, stream.length = step.keepIdx.length :=
    ((List.forall₂_and_left _ _).mp (hg.aux.imp fun _ _ hrow => ⟨hrow.length_part, hrow⟩)).1
  have hout := DeepseekV4Model.forward_hooked model rows
    { st with fc := { attnMetadata := fullMetadata d inp, dsv41Yoco := some step
                      cudagraph := false } }
    step hskip rfl rfl hpos rfl hlayer hs hmem hrows.engram hencoder hg.hidden.length_part
    (by rw [hrecon, List.length_map]; exact hg.hidden.length_part)
    haux hholds.mtp
  have href := DeepseekV4Model.forward_plain model rows
    { st with fc := maskContext d b inp graph } hskip rfl hs₂ (fun buf hbuf => by
      rw [hrecon₂, List.length_map, hstate.hidden]
      exact hholds.mtp buf hbuf)
  have hlength := DeepseekV4Model.length_truncatedLoop_topk model (fullMetadata d inp)
    step.decoderMetadata step.keepIdx b model.layers[b] rows st.memory
  rw [hs] at hlength
  refine ⟨_, _, _, stepContext_of_needEager h, hout, href, ?_, fun m hm =>
    hm.of_map hlength rfl fun buf => ?_⟩
  · -- the rows a truncated forward returns are the kept ones, scattered
    have hkept : keptRows d.keep inp.batch = step.keepIdx := if_pos h
    rw [hkept, hrecon, hrecon₂]
    constructor
    case caches => exact ⟨hg.swa, hg.shared⟩
    case hidden =>
      exact scatter_kept hsorted hmem
        ((hg.hidden.map model.mhcPost).zipWith hg.hidden model.collapse)
    case aux =>
      rw [List.forall₂_map_left_iff]
      exact hg.aux.imp fun _ _ hrow => scatter_kept hsorted hmem hrow
    case mtp =>
      cases st.mtpHiddenBuffer with
      | none => exact .none
      | some buf =>
        refine .some (scatterRowsInto_kept hsorted hmem (hg.hidden.map model.mhcPost) ?_)
        rw [List.length_map]
        exact hstate.hidden
    case restored => exact ⟨rfl, rfl⟩
    case spent =>
      intro spent hspent
      obtain rfl := Option.some.inj hspent
      rfl
  · rw [StepPlan.scatteredInto, length_indexCopy]
    exact length_le_overwrite _ _

/-- Any other step: its forward is the masked one. -/
theorem forward_of_not_needEager [Zero R] [Zero Y] (hb : Boundary model.config b) (hm : model.Fits)
    (hrows : inp.Feeds rows) (hskip : st.skipKv = none) (hholds : st.Holds inp.numRows)
    (graph : Bool) (h : needEager d.keep inp.batch = false) :
    ∃ fc out ref, stepContext d b inp graph = .ok fc ∧
      model.forward rows { st with fc := fc } = .ok out ∧
      model.forward rows { st with fc := maskContext d b inp graph } = .ok ref ∧
      AsMasked inp.numRows (keptRows d.keep inp.batch) (fullMetadata d inp) out ref ∧
      ∀ m, st.Holds m → out.2.Holds m := by
  obtain ⟨s, hs⟩ : ∃ s, model.plainLoop rows.engram (maskContext d b inp graph).attnMetadata 0
    model.layers (DeepseekV4Model.start rows st.memory) = s := ⟨_, rfl⟩
  have hstate := maskLoop_hasRows model d b hrows hholds.topk graph model.layers
  rw [hs] at hstate
  have hrecon := plainLoop_recon hb hm _ hs
  have hout := DeepseekV4Model.forward_plain model rows
    { st with fc := maskContext d b inp graph } hskip rfl hs (fun buf hbuf => by
      rw [hrecon, List.length_map, hstate.hidden]
      exact hholds.mtp buf hbuf)
  have hlength := length_plainLoop_topk model rows.engram 0 model.layers
    (DeepseekV4Model.start rows st.memory) (maskContext d b inp graph).attnMetadata
  rw [hs] at hlength
  refine ⟨maskContext d b inp graph, _, _, ?_, hout, hout, ?_, fun m hm =>
    hm.of_map hlength rfl fun buf => length_le_overwrite _ _⟩
  · rw [stepContext_of_not_needEager h, maskContext_of_not_needEager h]
  rw [hrecon]
  -- every row is kept
  have hall : ∀ f < inp.numRows, f ∈ keptRows d.keep inp.batch := by
    intro f hf
    rw [keptRows, if_neg (by rw [h]; exact Bool.false_ne_true)]
    exact List.mem_range.mpr hf
  have hsame : ∀ rows : List Y, rows.length = inp.numRows →
      RowsKept inp.numRows (keptRows d.keep inp.batch) rows rows := by
    intro rows hlen
    refine ⟨hlen, fun f hf => ?_⟩
    rw [if_pos (hall f hf)]
  constructor
  case caches => exact ⟨rfl, rfl⟩
  case hidden =>
    refine hsame _ ?_
    rw [List.length_zipWith, List.length_map, hstate.hidden, Nat.min_self]
  case aux =>
    rw [List.forall₂_same]
    exact fun stream hmem => hsame stream (hstate.aux stream hmem)
  case mtp =>
    cases st.mtpHiddenBuffer with
    | none => exact .none
    | some buf =>
      refine .some fun f => ?_
      rw [if_neg fun hno => hno.2 (hall f hno.1)]
  case restored =>
    refine ⟨?_, rfl⟩
    rw [maskContext_of_not_needEager h]
  case spent =>
    intro step hstep
    cases hstep

/-- Any step at all. -/
theorem forward_asMasked [Zero R] [Zero Y] (hb : Boundary model.config b) (hm : model.Fits)
    (hrows : inp.Feeds rows) (hskip : st.skipKv = none) (hholds : st.Holds inp.numRows)
    (graph : Bool) :
    ∃ fc out ref, stepContext d b inp graph = .ok fc ∧
      model.forward rows { st with fc := fc } = .ok out ∧
      model.forward rows { st with fc := maskContext d b inp graph } = .ok ref ∧
      AsMasked inp.numRows (keptRows d.keep inp.batch) (fullMetadata d inp) out ref ∧
      ∀ m, st.Holds m → out.2.Holds m := by
  cases h : needEager d.keep inp.batch with
  | true => exact forward_of_needEager hb hm hrows hskip hholds graph h
  | false => exact forward_of_not_needEager hb hm hrows hskip hholds graph h

/-- Every request samples from the row of the reference. -/
theorem RowsKept.sampled {α : Type} [Zero α] {keep : ℕ} {out ref : List α}
    (h : RowsKept inp.numRows (keptRows keep inp.batch) out ref) {i : ℕ}
    (hi : i < inp.batch.length) :
    out[rowStart inp.batch (i + 1) - 1]? = ref[rowStart inp.batch (i + 1) - 1]? := by
  have hlt : rowStart inp.batch (i + 1) - 1 < inp.numRows := by
    have hpos := (req inp.batch i).numRows_pos
    have hnext : rowStart inp.batch (i + 1) ≤ rowStart inp.batch inp.batch.length :=
      prefixSum_le_prefixSum _ hi
    rw [StepInputs.numRows, length_positions]
    rw [rowStart_succ] at hnext ⊢
    omega
  rw [h.row _ hlt, if_pos (last_mem_keptRows keep hi)]

/-- **The truncated forward is the masked forward.** With a driver that has passed
its checks, every step runs; its forward leaves the caches of the masked forward,
returns its rows wherever a row was kept and zero elsewhere, and puts the context
back. The row each request samples from is among the kept ones. -/
theorem forward_eq_masked [Zero R] [Zero Y] {stack : Stack} {isFamily120 : Bool} {spec : Option ℕ}
    {keep : ℕ} {driver : YocoPrefill}
    (hdriver : YocoPrefill.init stack isFamily120 spec keep = .ok driver)
    (hwindow : 0 < driver.config.slidingWindow) (width : ℕ)
    (hwidth : driver.config.slidingWindow ≤ width) (model : DeepseekV4Model F E A X V K B R Y)
    (hconfig : model.config = driver.config) (hm : model.Fits) (inp : StepInputs F)
    (rows : DeepseekV4Model.Inputs E X) (hrows : inp.Feeds rows) (st : Served F V K R)
    (hskip : st.skipKv = none) (hholds : st.Holds inp.numRows) (graph : Bool) :
    ∃ fc out ref,
      stepContext (YocoPrefill.deployment hdriver hwindow width hwidth) driver.boundary inp graph
        = .ok fc ∧
      model.forward rows { st with fc := fc } = .ok out ∧
      model.forward rows { st with
        fc := maskContext (YocoPrefill.deployment hdriver hwindow width hwidth) driver.boundary
          inp graph } = .ok ref ∧
      AsMasked inp.numRows (keptRows driver.keep inp.batch)
        (fullMetadata (YocoPrefill.deployment hdriver hwindow width hwidth) inp) out ref ∧
      ∀ i < inp.batch.length, out.1.hidden[rowStart inp.batch (i + 1) - 1]?
        = ref.1.hidden[rowStart inp.batch (i + 1) - 1]? := by
  have hb : Boundary model.config driver.boundary := by
    rw [hconfig]
    exact YocoPrefill.boundary_of_init hdriver
  obtain ⟨fc, out, ref, hfc, hout, href, has, -⟩ := forward_asMasked
    (d := YocoPrefill.deployment hdriver hwindow width hwidth) hb hm hrows hskip hholds graph
  exact ⟨fc, out, ref, hfc, hout, href, has, fun i hi => has.hidden.sampled hi⟩

end Main

/-! ### A small model -/

/-- Four layers: an encoder with n-gram rows, a kv source, the boundary, a decoder. -/
def smallConfig : Config := ⟨4, 3, 2, [0, 2, 1, 1], [1, 2], [1, 2, 3], 2, 1, [0], [3, 4]⟩

def smallStack : Stack := ⟨smallConfig, 0, 4, false, fun _ => 0⟩

/-- A layer whose functions tell their arguments apart. A pure sliding-window layer
is one with `sparse` unset. -/
def smallLayer (sparse : Bool) (c : ℕ) : DecoderLayer Unit ℕ ℕ ℕ ℕ (List ℕ) ℕ where
  attnPre x := x * 3 + c
  engram e x := e * 7 + x + c
  produceKv _ _ positions xs shared := shared ++ List.zipWith (· + ·) positions xs
  swaKey p x := p * 1000 + x
  selectTopk _ r p x candidates shared :=
    [((r + p + x + shared.foldl (· + ·) 0) % 5 : ℕ), (candidates.getD []).foldl (· + ·) 0]
  candidateBlocks _ r p x shared := [((r * 2 + p + x + shared.length) % 3 : ℕ)]
  mqa _ r p x window topk shared := r + 3 * p + x + window.foldl (· + ·) 0 +
    if sparse then (topk.foldl (· + ·) 0).toNat + shared.foldl (· + ·) 0 else 0
  ffn i x o := i + x * 2 + o

def smallModel : DeepseekV4Model Unit ℕ ℕ ℕ ℕ (List ℕ) ℕ ℕ ℕ where
  config := smallConfig
  layers := [smallLayer false 1, smallLayer true 2, smallLayer true 3, smallLayer true 4]
  auxHiddenStateLayers := [3, 4]
  mhcPost x := x + 1
  mean r := r * 2
  collapse r x := r + x

theorem small_init : YocoPrefill.init smallStack true (some 2) 6 = .ok ⟨smallConfig, 6, 2⟩ := by
  rfl

theorem smallModel_fits : smallModel.Fits := by
  constructor
  case layers => rfl
  case ratios => decide
  case candidate =>
    intro l hl
    obtain rfl : 2 = l := Int.ofNat_inj.mp hl
    decide
  case aux => exact fun t ht => ht

/-- A decode step with one draft beside a chunk of a prompt of `16` that reaches
into its rectangle. -/
def smallStep : StepInputs Unit where
  batch := [.ofRunner 9 7 2 ⟨id, 4⟩ Nat.two_pos, .ofRunner 8 16 5 ⟨id, 4⟩ (Nat.succ_pos 4)]
  swaTable l r := ⟨fun k => k * 5 + l + r * 50, 4⟩
  indexTable _ r := ⟨fun k => k * 5 + r * 50, 4⟩
  maxSeqLen := 13
  other := ()

def smallRows : DeepseekV4Model.Inputs ℕ ℕ where
  hidden := [5, 18, 31, 44, 57, 70, 83]
  positions := positions smallStep.batch
  inputIds := [0, 1, 2, 3, 4, 5, 6]
  engram := some [9, 8, 7, 6, 5, 4, 3]

theorem smallStep_feeds : smallStep.Feeds smallRows := by
  constructor
  case hidden => rfl
  case positions => rfl
  case inputIds => rfl
  case engram =>
    intro grams hgrams
    obtain rfl := Option.some.inj hgrams
    decide

def smallServed (fc : ForwardContext Unit) : Served Unit ℕ (List ℕ) ℕ where
  memory := ⟨fun _ _ => 0, [], List.replicate 8 [], List.replicate 8 []⟩
  fc := fc
  skipKv := none
  mtpHiddenBuffer := some (List.replicate 8 9)

theorem smallServed_holds (fc : ForwardContext Unit) : (smallServed fc).Holds 8 where
  topk := List.length_replicate.ge
  mtp := by
    intro buf hbuf
    obtain rfl := Option.some.inj hbuf
    decide

/-- The small step drops the two rows of its chunk below the rectangle. -/
theorem forward_eq_masked_small :
    keptRows 6 smallStep.batch = [0, 1, 4, 5, 6] ∧ ∃ fc out ref,
      stepContext (YocoPrefill.deployment small_init (by decide) 4 (by decide)) 2 smallStep true
        = .ok fc ∧
      smallModel.forward smallRows (smallServed fc) = .ok out ∧
      smallModel.forward smallRows (smallServed (maskContext
        (YocoPrefill.deployment small_init (by decide) 4 (by decide)) 2 smallStep true)) = .ok ref ∧
      AsMasked 7 (keptRows 6 smallStep.batch) (fullMetadata
        (YocoPrefill.deployment small_init (by decide) 4 (by decide)) smallStep) out ref ∧
      ∀ i < 2, out.1.hidden[rowStart smallStep.batch (i + 1) - 1]?
        = ref.1.hidden[rowStart smallStep.batch (i + 1) - 1]? :=
  ⟨by decide, forward_eq_masked small_init (by decide) 4 (by decide) smallModel rfl smallModel_fits
    smallStep smallRows smallStep_feeds (smallServed (maskContext
      (YocoPrefill.deployment small_init (by decide) 4 (by decide)) 2 smallStep true)) rfl
    ((smallServed_holds _).of_le (by decide)) true⟩

end Yoco
end Dsv41Overlay
