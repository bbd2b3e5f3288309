import Dsv41Overlay.Yoco.Prefill
import Mathlib.Data.List.Basic

/-!
# Which layers may run on the kept rows only

The decoder is split off at its first layer with compress ratio `1`. The split
needs more than the ratios: a layer after the boundary must not feed a cache
that every token has to reach, and must not read a row-indexed buffer that an
encoder layer filled. `decoder_boundary` checks the sharing topology of the
checkpoint, and `Boundary` collects what its success says; `boundary_of_ok`
proves it. `YocoPrefill.init` adds the checks on the deployment; a driver it
returns satisfies the hypotheses of the results about its forwards
(`YocoPrefill.boundary_of_init`, `YocoPrefill.min_keep_of_init`).
-/

namespace Dsv41Overlay
namespace Yoco

/-- The fields of the checkpoint's config that the split depends on. -/
structure Config where
  numHiddenLayers : ℕ
  slidingWindow : ℕ
  indexTopk : ℕ
  compressRatios : List ℕ
  kvSourceLayerIds : List ℕ
  indexSourceLayerIds : List ℕ
  candidateSourceLayerId : ℤ
  candidateTopkBlocks : ℕ
  engramLayerIds : List ℕ
  dsparkTargetLayerIds : List ℕ

/-- `decoder_boundary`: the first decoder layer, or why the checkpoint does not
allow the split. -/
def decoderBoundary (cfg : Config) : Except String ℕ :=
  let n := cfg.numHiddenLayers
  let ratios := cfg.compressRatios.take n
  match ratios.idxOf? 1 with
  | none => .error "no compress-ratio-1 layer: not a CED (YOCO) checkpoint"
  | some boundary =>
    if (ratios.drop boundary).any (· ≠ 1) then
      .error s!"layers {boundary}..{n - 1} are not all compress-ratio 1"
    else if boundary ∉ cfg.kvSourceLayerIds ∨ cfg.kvSourceLayerIds.max? ≠ some boundary then
      .error s!"layer {boundary} must be the last kv-source layer (got {cfg.kvSourceLayerIds})"
    else if boundary ∉ cfg.indexSourceLayerIds then
      .error s!"layer {boundary} must be an index-source layer (got {cfg.indexSourceLayerIds})"
    else if 0 ≤ cfg.candidateSourceLayerId ∧ cfg.candidateSourceLayerId < boundary then
      .error s!"candidate source {cfg.candidateSourceLayerId} is on the encoder side"
    else if cfg.engramLayerIds.any (boundary ≤ ·) then
      .error s!"Engram layers {cfg.engramLayerIds} must all precede layer {boundary}"
    else if cfg.dsparkTargetLayerIds.any (· ≤ boundary) then
      .error
        s!"DSpark target layers {cfg.dsparkTargetLayerIds} must all follow layer {boundary}"
    else .ok boundary

/-- What the split needs of the topology. -/
structure Boundary (cfg : Config) (b : ℕ) : Prop where
  lt_numHiddenLayers : b < cfg.numHiddenLayers
  /-- The layers from the boundary on compress with ratio `1`, as far as the
  config lists them. -/
  ratio : ∀ l, b ≤ l → l < cfg.numHiddenLayers → l < cfg.compressRatios.length →
    cfg.compressRatios.getD l 0 = 1
  /-- The boundary is the last layer to feed a shared KV cache. -/
  kvSource : b ∈ cfg.kvSourceLayerIds ∧ ∀ l ∈ cfg.kvSourceLayerIds, l ≤ b
  /-- The boundary fills the top-k buffer itself. -/
  indexSource : b ∈ cfg.indexSourceLayerIds
  /-- Candidate blocks are published by a decoder layer, or by none. -/
  candidate : 0 ≤ cfg.candidateSourceLayerId → (b : ℤ) ≤ cfg.candidateSourceLayerId
  /-- Engram rows, numbered over the full batch, are read by encoder layers only. -/
  engram : ∀ l ∈ cfg.engramLayerIds, l < b
  /-- The streams captured for the drafter leave a decoder layer. -/
  dsparkTarget : ∀ t ∈ cfg.dsparkTargetLayerIds, b < t

/-- **A checkpoint that passes** the checks has the topology of the split. -/
theorem boundary_of_ok {cfg : Config} {b : ℕ} (h : decoderBoundary cfg = .ok b) :
    Boundary cfg b := by
  unfold decoderBoundary at h
  dsimp only at h
  split at h
  · cases h
  · next boundary hidx =>
    split_ifs at h with hratio hkv hindex hcand hengram hdspark
    obtain rfl : boundary = b := by simpa using h
    obtain ⟨hlt, hone, -⟩ := List.findIdx?_eq_some_iff_getElem.mp hidx
    rw [List.length_take] at hlt
    have hmem := not_or.mp hkv
    constructor
    case lt_numHiddenLayers => omega
    case ratio =>
      intro l hbl hln hll
      -- entry `l` is entry `l - b` of the tail the check reads
      have htail : ((cfg.compressRatios.take cfg.numHiddenLayers).drop boundary)[l - boundary]?
          = some (cfg.compressRatios.getD l 0) := by
        rw [List.getElem?_drop, Nat.add_sub_cancel' hbl, List.getElem?_take_of_lt hln,
          List.getD_eq_getElem?_getD, List.getElem?_eq_getElem hll, Option.getD_some]
      simpa using List.any_eq_false.mp (Bool.eq_false_of_not_eq_true hratio) _
        (List.mem_of_getElem? htail)
    case kvSource =>
      refine ⟨not_not.mp hmem.1, fun l hl => ?_⟩
      exact (List.max?_eq_some_iff.mp (not_not.mp hmem.2)).2 l hl
    case indexSource => exact hindex
    case candidate =>
      intro hnonneg
      exact not_lt.mp fun hlt => hcand ⟨hnonneg, hlt⟩
    case engram =>
      intro l hl
      simpa using List.any_eq_false.mp (Bool.eq_false_of_not_eq_true hengram) l hl
    case dsparkTarget =>
      intro t ht
      simpa using List.any_eq_false.mp (Bool.eq_false_of_not_eq_true hdspark) t ht

/-! ### The driver -/

namespace Config

variable (cfg : Config) (l : ℕ)

/-- `is_kv_source`: the layer owns a compressor and the index keys. -/
def isKvSource : Bool := decide (l < cfg.numHiddenLayers ∧ l ∈ cfg.kvSourceLayerIds)

/-- `is_index_source`: the layer owns an indexer. -/
def isIndexSource : Bool := decide (l < cfg.numHiddenLayers ∧ l ∈ cfg.indexSourceLayerIds)

/-- The layer injects n-gram rows. -/
def hasEngram : Bool := decide (l ∈ cfg.engramLayerIds)

/-- The layer's indexer publishes candidate blocks. -/
def isCandidateSource : Bool :=
  decide (0 < cfg.candidateTopkBlocks ∧ cfg.candidateSourceLayerId = l)

/-- The layer's indexer masks its scores with the published candidate blocks. -/
def usesCandidates : Bool :=
  decide (0 < cfg.candidateTopkBlocks ∧ 0 ≤ cfg.candidateSourceLayerId ∧
    cfg.candidateSourceLayerId < l)

/-- `compress_ratio` of a layer; past the listed layers it is `0`. -/
def compressRatio : ℕ := cfg.compressRatios.getD l 0

end Config

/-- What the driver reads of the served model besides its config. -/
structure Stack where
  config : Config
  startLayer : ℕ
  endLayer : ℕ
  useSequenceParallel : Bool
  maxImageTokens : ℕ → ℕ

/-- The per-rank driver. -/
structure YocoPrefill where
  config : Config
  keep : ℕ
  boundary : ℕ

/-- `YocoPrefill.__init__`. -/
def YocoPrefill.init (stack : Stack) (isFamily120 : Bool) (numSpeculativeTokens : Option ℕ)
    (keep : ℕ) : Except String YocoPrefill :=
  let cfg := stack.config
  match decoderBoundary cfg with
  | .error e => .error e
  | .ok boundary =>
    let n := cfg.numHiddenLayers
    let k := numSpeculativeTokens.getD 0
    let need := minKeepTokens cfg.slidingWindow k
    if (stack.startLayer, stack.endLayer) ≠ (0, n) then
      .error "[dsv41-yoco] pipeline parallelism is not supported"
    else if stack.useSequenceParallel then
      .error "[dsv41-yoco] sequence-parallel MoE is not supported"
    else if !isFamily120 then
      .error ("[dsv41-yoco] only the SM12x FlashInfer paged-direct SWA " ++
        "path is supported (the FlashMLA gather path is not clamped)")
    else if keep < need then
      .error (s!"[dsv41-yoco] DSV41_YOCO_KEEP_TOKENS={keep} < window " ++
        s!"{cfg.slidingWindow} + backtrack {k + 1} = {need}")
    else if cfg.hasEngram boundary || !cfg.isKvSource boundary || !cfg.isIndexSource boundary then
      .error s!"[dsv41-yoco] layer {boundary} is not a kv/index-K source"
    else if (List.range' boundary (n - boundary)).any (stack.maxImageTokens · ≠ 0) then
      .error "[dsv41-yoco] vision-widened SWA windows are not supported"
    else .ok ⟨cfg, keep, boundary⟩

namespace YocoPrefill

variable {stack : Stack} {isFamily120 : Bool} {spec : Option ℕ} {keep : ℕ} {driver : YocoPrefill}

/-- What the checks leave of a driver they accept. -/
theorem eq_of_init (h : init stack isFamily120 spec keep = .ok driver) :
    driver.config = stack.config ∧ driver.keep = keep ∧
      decoderBoundary stack.config = .ok driver.boundary ∧
      minKeepTokens stack.config.slidingWindow (spec.getD 0) ≤ keep := by
  unfold init at h
  dsimp only at h
  split at h
  · cases h
  · next boundary hb =>
    split_ifs at h with h₁ h₂ h₃ hkeep h₅ h₆
    obtain rfl : (⟨stack.config, keep, boundary⟩ : YocoPrefill) = driver := by simpa using h
    exact ⟨rfl, rfl, hb, not_lt.mp hkeep⟩

/-- A driver has the topology of the split. -/
theorem boundary_of_init (h : init stack isFamily120 spec keep = .ok driver) :
    Boundary driver.config driver.boundary := by
  obtain ⟨hcfg, -, hb, -⟩ := eq_of_init h
  rw [hcfg]
  exact boundary_of_ok hb

/-- A driver keeps a whole window behind every backtracking decode step. -/
theorem min_keep_of_init (h : init stack isFamily120 spec keep = .ok driver) :
    minKeepTokens driver.config.slidingWindow (spec.getD 0) ≤ driver.keep := by
  obtain ⟨hcfg, hkeep, -, hmin⟩ := eq_of_init h
  rw [hcfg, hkeep]
  exact hmin

/-- The deployment of a driver whose kernel writes index rows of `width` entries. -/
def deployment (h : init stack isFamily120 spec keep = .ok driver)
    (hwindow : 0 < driver.config.slidingWindow) (width : ℕ)
    (hwidth : driver.config.slidingWindow ≤ width) : Deployment where
  window := driver.config.slidingWindow
  width := width
  numSpeculativeTokens := spec.getD 0
  keep := driver.keep
  window_pos := hwindow
  window_le_width := hwidth
  min_keep := min_keep_of_init h

/-- **The check on the boundary layer cannot fail**: built from a config whose
topology is accepted, it is a kv and index-K source. -/
theorem boundary_roles {cfg : Config} {b : ℕ} (h : decoderBoundary cfg = .ok b) :
    (cfg.hasEngram b || !cfg.isKvSource b || !cfg.isIndexSource b) = false := by
  have hb := boundary_of_ok h
  have hnone : b ∉ cfg.engramLayerIds := fun hmem => absurd (hb.engram b hmem) (lt_irrefl b)
  simp [Config.hasEngram, Config.isKvSource, Config.isIndexSource, hnone, hb.kvSource.1,
    hb.indexSource, hb.lt_numHiddenLayers]

end YocoPrefill

end Yoco
end Dsv41Overlay
