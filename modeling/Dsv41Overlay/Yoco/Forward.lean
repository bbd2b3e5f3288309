import Dsv41Overlay.Lib.Rows
import Dsv41Overlay.Yoco.Topology

/-!
# The patched forward

`DeepseekV4Model.forward` with the hooks of the patch, over the driver's
`StepPlan`. One forward runs the layers in order on the rows of a step. Without
a plan every layer runs on every row. With one, the boundary layer calls `split`
between its pre-mix and its attention: the shared KV of the step is produced
from all rows under the full metadata, then rows, positions and input ids are
gathered, the decoder's metadata takes the place of the full one, and the
boundary's attention is told not to produce the KV a second time. `finish`
scatters what leaves the last layer back over the full batch.

The learned functions of a layer (`DecoderLayer`) are parameters. They act row
by row, except for the production of the shared KV, which sees the whole batch.
Which of them a layer uses is read off the config, as its constructor does. What
the layers share is in `Memory`: each layer's sliding-window cache, the shared
KV, and the two scratch buffers whose rows are numbered like the rows of the
forward.
-/

namespace Dsv41Overlay
namespace Yoco

variable {F E A X V K B R Y : Type}

/-! ### Attention metadata -/

/-- What the index-K metadata says of one row: its request and the slot its index
key is stored to. -/
structure IndexRow where
  request : ℕ
  slot : ℤ

/-- The metadata of an index-K cache. -/
structure IndexMetadata where
  maxSeqLen : ℕ
  rows : List IndexRow

/-- The attention metadata of a step: the entries of each layer's sliding-window
cache and of the index-K cache it reads, and all that is kept per request. -/
structure AttnMetadata (F : Type) where
  other : F
  swa : ℕ → List DecoderRow
  index : ℕ → IndexMetadata

/-- What layer `l` sees of the metadata. -/
structure LayerView (F : Type) where
  other : F
  swa : List DecoderRow
  index : IndexMetadata

/-- The entries of layer `l`. -/
def AttnMetadata.view (md : AttnMetadata F) (l : ℕ) : LayerView F :=
  ⟨md.other, md.swa l, md.index l⟩

/-! ### One layer -/

/-- The learned functions of one layer. -/
structure DecoderLayer (F E A X V K B : Type) where
  /-- The streams leaving the layer below, mixed for attention. -/
  attnPre : X → A
  /-- The same with a row of n-gram embeddings injected. -/
  engram : E → X → A
  /-- Compressor scores, compressed-KV store and index-K store of a whole batch. -/
  produceKv : F → IndexMetadata → List ℕ → List A → K → K
  /-- The sliding-window entry of a row. -/
  swaKey : ℕ → A → V
  /-- The indexer's top-k of a row, within the candidate blocks if it has any. -/
  selectTopk : F → ℕ → ℕ → A → Option (List ℤ) → K → List ℤ
  /-- The candidate blocks the indexer publishes for a row. -/
  candidateBlocks : F → ℕ → ℕ → A → K → List ℤ
  /-- Sparse attention over the visible window entries and the top-k. -/
  mqa : F → ℕ → ℕ → A → List V → List ℤ → K → B
  /-- What follows attention: the post-mix and the experts. -/
  ffn : ℕ → A → B → X

/-- What the layers of a forward share. -/
structure Memory (V K : Type) where
  /-- The sliding-window cache of each layer. -/
  swa : ℕ → ℤ → V
  /-- Compressed KV, compressor states and index keys. -/
  shared : K
  /-- `topk_indices_buffer`. -/
  topk : List (List ℤ)
  /-- `candidate_block_buffer`. -/
  candidate : List (List ℤ)

/-- `_fill_short_context_topk_indices`: every compressed position, then `-1`. -/
def shortTopk (topk ratio pos : ℕ) : List ℤ :=
  (List.range topk).map fun j => if j < (pos + 1) / ratio then (j : ℤ) else -1

/-- One row of a layer's attention: what the metadata says of it and its input. -/
structure AttnRow (A : Type) where
  request : ℕ
  pos : ℕ
  swa : DecoderRow
  x : A

/-- The rows of a layer's attention. -/
def attnRows (v : LayerView F) (positions : List ℕ) (xs : List A) : List (AttnRow A) :=
  List.zipWith (fun md px => ⟨md.1, px.1, md.2, px.2⟩)
    ((v.index.rows.map (·.request)).zip v.swa) (positions.zip xs)

namespace DecoderLayer

variable (layer : DecoderLayer F E A X V K B) (cfg : Config) (l : ℕ)

/-- The inputs of the layer's attention, on every row. -/
def pre (engram : Option (List E)) (hidden : List X) : List A :=
  match engram with
  | some rows => if cfg.hasEngram l then List.zipWith layer.engram rows hidden
      else hidden.map layer.attnPre
  | none => hidden.map layer.attnPre

/-- The indexer: the top-k and candidate buffers after it. Layers without an
indexer leave what the last one published. -/
def indexer (v : LayerView F) (rows : List (AttnRow A)) (m : Memory V K) :
    List (List ℤ) × List (List ℤ) :=
  if !cfg.isIndexSource l then (m.topk, m.candidate)
  else if v.index.maxSeqLen / cfg.compressRatio l ≤ cfg.indexTopk then
    -- no more candidates than the top-k holds: all of them, and none is published
    (overwrite m.topk 0 (rows.map fun r => shortTopk cfg.indexTopk (cfg.compressRatio l) r.pos),
      m.candidate)
  else
    -- scores outside the candidate blocks count for nothing
    let topk := if cfg.usesCandidates l then
        List.zipWith (fun r c => layer.selectTopk v.other r.request r.pos r.x (some c) m.shared)
          rows m.candidate
      else rows.map fun r => layer.selectTopk v.other r.request r.pos r.x none m.shared
    let candidate := if cfg.isCandidateSource l then
        overwrite m.candidate 0
          (rows.map fun r => layer.candidateBlocks v.other r.request r.pos r.x m.shared)
      else m.candidate
    (overwrite m.topk 0 topk, candidate)

/-- `produce_kv_full`, also what a kv source does inside its own attention. -/
def produceKvFull (v : LayerView F) (positions : List ℕ) (xs : List A) (m : Memory V K) :
    Memory V K :=
  { m with shared := layer.produceKv v.other v.index positions xs m.shared }

/-- The attention after the kv-source work: every row is stored to the layer's
own cache before any row reads it. -/
def sparseAttn (v : LayerView F) (positions : List ℕ) (xs : List A) (m : Memory V K) :
    List B × Memory V K :=
  let rows := attnRows v positions xs
  let swa := storeRows (m.swa l) (rows.map fun r => (r.swa.slot, layer.swaKey r.pos r.x))
  let ix := layer.indexer cfg l v rows m
  (List.zipWith (fun r t => layer.mqa v.other r.request r.pos r.x
      (r.swa.swa.visible.map swa) t m.shared) rows ix.1,
    { m with swa := Function.update m.swa l swa, topk := ix.1, candidate := ix.2 })

/-- `DeepseekV4Attention.forward`. -/
def attn (v : LayerView F) (skipKv : Bool) (positions : List ℕ) (xs : List A)
    (m : Memory V K) : List B × Memory V K :=
  layer.sparseAttn cfg l v positions xs
    (if cfg.isKvSource l && !skipKv then layer.produceKvFull v positions xs m else m)

/-- The layer from its attention on. -/
def attnFfn (v : LayerView F) (skipKv : Bool) (positions inputIds : List ℕ) (xs : List A)
    (m : Memory V K) : List X × Memory V K :=
  let out := layer.attn cfg l v skipKv positions xs m
  (List.zipWith (fun ix b => layer.ffn ix.1 ix.2 b) (inputIds.zip xs) out.1, out.2)

end DecoderLayer

/-! ### The step plan -/

/-- `StepPlan`, as `attach` makes it. -/
structure StepPlan (F : Type) where
  keepIdx : List ℕ
  numRows : ℕ
  boundary : ℕ
  decoderMetadata : AttnMetadata F
  used : Bool

/-- `ForwardContext`: the metadata object in force. Only the object `attach`
returns carries a plan. -/
structure ForwardContext (F : Type) where
  attnMetadata : AttnMetadata F
  dsv41Yoco : Option (StepPlan F)
  cudagraph : Bool

/-- A plan that a forward has begun. -/
structure RunningPlan (F : Type) extends StepPlan F where
  fullMetadata : AttnMetadata F
  positions : Option (List ℕ)
  inputIds : Option (List ℕ)
  /-- The layer whose attention was told to skip its kv-source work. -/
  attn : Option ℕ

/-- `begin`: the plan of this step, if it has one. -/
def begin (fc : ForwardContext F) (positions : List ℕ) :
    Except String (Option (RunningPlan F)) :=
  match fc.dsv41Yoco with
  | none => .ok none
  | some step =>
    -- a graph replays the shapes it was captured with
    if fc.cudagraph then .error "[dsv41-yoco] truncation plan in a cudagraph forward"
    else if positions.length ≠ step.numRows then
      .error (s!"[dsv41-yoco] plan for {step.numRows} rows, forward has " ++
        s!"{positions.length}")
    else if step.used then .error "[dsv41-yoco] truncation plan reused"
    else .ok (some
      { toStepPlan := { step with used := true }
        fullMetadata := fc.attnMetadata
        positions := none
        inputIds := none
        attn := none })

/-! ### The loop over the layers -/

/-- The served model. -/
structure DeepseekV4Model (F E A X V K B R Y : Type) where
  config : Config
  layers : List (DecoderLayer F E A X V K B)
  /-- The layers below which an auxiliary stream is captured. -/
  auxHiddenStateLayers : List ℕ
  /-- `mhc_post` of the carried streams. -/
  mhcPost : X → R
  /-- The mean over the streams. -/
  mean : R → Y
  /-- The last collapse and norm. -/
  collapse : R → X → Y

/-- What the layers of a forward pass on: the rows and what they share. -/
structure LayerState (X V K R Y : Type) where
  hidden : List X
  positions : List ℕ
  inputIds : List ℕ
  memory : Memory V K
  aux : List (List Y)
  finalAuxRecon : List R

/-- The state of the loop: the layers' own, and what the hooks change. -/
structure LoopState (F X V K R Y : Type) extends LayerState X V K R Y where
  fc : ForwardContext F
  plan : Option (RunningPlan F)
  /-- The layer whose attention carries `_dsv41_yoco_skip_kv`. -/
  skipKv : Option ℕ

/-- `StepPlan.split`: the shared KV from every row under the metadata in force,
then the rows that are kept. Returns the rows, positions and input ids the
boundary layer goes on with. -/
def RunningPlan.split (step : RunningPlan F) (layer : DecoderLayer F E A X V K B) (l : ℕ)
    (xs : List A) (s : LoopState F X V K R Y) :
    Except String ((List A × List ℕ × List ℕ) × LoopState F X V K R Y) := do
  -- the metadata in force is still the stock one, so every row is stored
  let memory := layer.produceKvFull (s.fc.attnMetadata.view l) s.positions xs s.memory
  let xs ← indexSelect xs step.keepIdx
  let positions ← indexSelect s.positions step.keepIdx
  let inputIds ← indexSelect s.inputIds step.keepIdx
  .ok ((xs, positions, inputIds),
    { s with
      memory := memory
      -- a plain dictionary: the layers behind the boundary find no plan in it
      fc := { s.fc with attnMetadata := step.decoderMetadata, dsv41Yoco := none }
      plan := some
        { step with positions := some positions, inputIds := some inputIds, attn := some l }
      skipKv := some l })

/-- `StepPlan.after_split`. -/
def RunningPlan.afterSplit (step : RunningPlan F) (s : LoopState F X V K R Y) :
    Except String (LoopState F X V K R Y) :=
  match step.positions, step.inputIds with
  | some positions, some inputIds => .ok
    { s with
      positions := positions
      inputIds := inputIds
      skipKv := if step.attn.isSome then none else s.skipKv }
  | _, _ => .error "boundary layer did not call split()"

/-- The outputs of a forward: the hidden states and the auxiliary ones. -/
structure Outputs (Y : Type) where
  hidden : List Y
  aux : List (List Y)

/-- What a forward finds and leaves behind besides its outputs. -/
structure Served (F V K R : Type) where
  memory : Memory V K
  fc : ForwardContext F
  skipKv : Option ℕ
  mtpHiddenBuffer : Option (List R)

/-- `StepPlan._scatter`. -/
def StepPlan.scatter {α : Type} [Zero α] (step : StepPlan F) (rows : List α) :
    Except String (List α) :=
  indexCopyInto (List.replicate step.numRows 0) step.keepIdx rows

/-- `StepPlan.scatter_rows_into`. -/
def StepPlan.scatterRowsInto {α : Type} [Zero α] (step : StepPlan F) (buf rows : List α) :
    Except String (List α) :=
  -- `buf[:num_rows]` is no longer than the buffer
  indexCopyInto (overwrite buf 0 (List.replicate (min step.numRows buf.length) 0)) step.keepIdx
    rows

/-- What a forward leaves in the buffer of the drafter's hidden states, if it has one. -/
def storeMtp [Zero R] (plan : Option (RunningPlan F)) (recon : List R) :
    Option (List R) → Except String (Option (List R))
  | none => .ok none
  | some buf =>
    match plan with
    | some step => some <$> step.scatterRowsInto buf recon
    | none =>
      if recon.length ≤ buf.length then .ok (some (overwrite buf 0 recon))
      else .error (s!"The size of tensor a ({buf.length}) must match the size of tensor b " ++
        s!"({recon.length}) at non-singleton dimension 0")

/-- `StepPlan.finish`. The metadata object put back is the one that carries the
plan, used by now. -/
def RunningPlan.finish [Zero Y] (step : RunningPlan F) (hidden : List Y) (mtp : Option (List R))
    (s : LoopState F X V K R Y) : Except String (Outputs Y × Served F V K R) := do
  let hidden ← step.scatter hidden
  let aux ← s.aux.mapM step.scatter
  .ok ({ hidden := hidden, aux := aux },
    { memory := s.memory
      fc := { s.fc with attnMetadata := step.fullMetadata, dsv41Yoco := some step.toStepPlan }
      skipKv := if step.attn.isSome then none else s.skipKv
      mtpHiddenBuffer := mtp })

namespace DeepseekV4Model

variable (model : DeepseekV4Model F E A X V K B R Y)

/-- One layer under the metadata in force, with the split hook where the plan
asks for it. -/
def callLayer (engram : Option (List E)) (l : ℕ) (layer : DecoderLayer F E A X V K B)
    (s : LoopState F X V K R Y) : Except String (LoopState F X V K R Y) := do
  let xs := layer.pre model.config l engram s.hidden
  let plain := ((xs, s.positions, s.inputIds), s)
  let hooked ← match s.plan with
    | some step => if l = step.boundary then step.split layer l xs s else .ok plain
    | none => .ok plain
  let rows := hooked.1
  let s := hooked.2
  let out := layer.attnFfn model.config l (s.fc.attnMetadata.view l) (decide (s.skipKv = some l))
    rows.2.1 rows.2.2 rows.1 s.memory
  .ok { s with hidden := out.1, memory := out.2 }

/-- The auxiliary stream captured above layer `l`. -/
def captureAux (l : ℕ) (s : LayerState X V K R Y) : LayerState X V K R Y :=
  if l + 1 ∈ model.auxHiddenStateLayers then
    let recon := s.hidden.map model.mhcPost
    { s with aux := s.aux ++ [recon.map model.mean], finalAuxRecon := recon }
  else s

/-- One round of the loop of `forward`. -/
def round (engram : Option (List E)) (l : ℕ) (layer : DecoderLayer F E A X V K B)
    (s : LoopState F X V K R Y) : Except String (LoopState F X V K R Y) := do
  let s ← model.callLayer engram l layer s
  let s ← match s.plan with
    | some step => if l = step.boundary then step.afterSplit s else .ok s
    | none => .ok s
  .ok { s with toLayerState := model.captureAux l s.toLayerState }

/-- The loop of `forward` from layer `l` on. -/
def loop (engram : Option (List E)) : ℕ → List (DecoderLayer F E A X V K B) →
    LoopState F X V K R Y → Except String (LoopState F X V K R Y)
  | _, [], s => .ok s
  | l, layer :: layers, s => do
    let s ← model.round engram l layer s
    loop engram (l + 1) layers s

/-- The rows the loop starts from. -/
structure Inputs (E X : Type) where
  hidden : List X
  positions : List ℕ
  inputIds : List ℕ
  engram : Option (List E)

/-- `DeepseekV4Model.forward`, from the embedded rows on. -/
def forward [Zero R] [Zero Y] (inp : Inputs E X) (st : Served F V K R) :
    Except String (Outputs Y × Served F V K R) := do
  let plan ← begin st.fc inp.positions
  let s ← model.loop inp.engram 0 model.layers
    { hidden := inp.hidden, positions := inp.positions, inputIds := inp.inputIds
      memory := st.memory, aux := [], finalAuxRecon := []
      fc := st.fc, plan := plan, skipKv := st.skipKv }
  -- reused when the last layer was captured as an auxiliary stream
  let recon := if model.layers.length ∈ model.auxHiddenStateLayers then s.finalAuxRecon
    else s.hidden.map model.mhcPost
  let mtp ← storeMtp s.plan recon st.mtpHiddenBuffer
  let hidden := List.zipWith model.collapse recon s.hidden
  match s.plan with
  | some step => step.finish hidden mtp s
  | none => .ok ({ hidden := hidden, aux := s.aux },
      { memory := s.memory, fc := s.fc, skipKv := s.skipKv, mtpHiddenBuffer := mtp })

end DeepseekV4Model

/-! ### The metadata of a step -/

/-- The batch with other block tables, by request. -/
def Batch.withTables (batch : Batch) (table : ℕ → BlockTable) : Batch :=
  batch.mapIdx fun i r => { r with blockTable := table i }

/-- One step of the runner: its requests, the block tables of each layer's cache
groups, and what every entry of the metadata shares. -/
structure StepInputs (F : Type) where
  batch : Batch
  /-- The block tables of layer `l`'s sliding-window group. -/
  swaTable : ℕ → ℕ → BlockTable
  /-- The block tables of the index-K group layer `l` reads. -/
  indexTable : ℕ → ℕ → BlockTable
  maxSeqLen : ℕ
  other : F

/-- Row `f` of the stock index-K metadata. -/
def fullIndexRow (batch : Batch) (f : ℕ) : IndexRow where
  request := (tokenToReq (Batch.queryStartLoc batch)).getD f 0
  slot := (Batch.slotMapping batch).getD f (-1)

/-- Row `j` of the compact index-K metadata. -/
def compactIndexRow (batch : Batch) (plan : KeepPlan) (j : ℕ) : IndexRow where
  request := (tokenToReq plan.compactQsl).getD j 0
  slot := if plan.placeholder.getD j false then -1
    else (Batch.slotMapping batch).getD (plan.keepIdx.getD j 0) (-1)

section Attach

variable (d : Deployment) (boundary : ℕ) (inp : StepInputs F)

/-- The number of rows of the step. -/
def StepInputs.numRows : ℕ := (Batch.positions inp.batch).length

/-- The metadata `prepare_attn` builds for the step. -/
def fullMetadata : AttnMetadata F where
  other := inp.other
  swa l := (List.range inp.numRows).map
    (fullRow d.window d.width (inp.batch.withTables (inp.swaTable l)))
  index l := ⟨inp.maxSeqLen,
    (List.range inp.numRows).map (fullIndexRow (inp.batch.withTables (inp.indexTable l)))⟩

/-- The metadata of the decoder layers under a plan: the compact entries for
them, the stock ones for the others. -/
def decoderMetadata (plan : KeepPlan) : AttnMetadata F where
  other := inp.other
  swa l := if boundary ≤ l then (List.range plan.keepIdx.length).map
      (compactRow d.window d.width (inp.batch.withTables (inp.swaTable l)) plan)
    else (fullMetadata d inp).swa l
  index l := if boundary ≤ l then ⟨inp.maxSeqLen, (List.range plan.keepIdx.length).map
      (compactIndexRow (inp.batch.withTables (inp.indexTable l)) plan)⟩
    else (fullMetadata d inp).index l

/-- `YocoPrefill.attach` on the metadata of the step. -/
def attachPlan (forCapture cudagraph : Bool) :
    Except String (AttnMetadata F × Option (StepPlan F)) :=
  let full := fullMetadata d inp
  if forCapture || cudagraph || !(inp.batch.any (·.isPrefilling)) then .ok (full, none)
  else
    match buildKeepPlan (Batch.arrays inp.batch) d.keep with
    | .error e => .error e
    | .ok plan =>
      -- every prefill of the step fits its rectangle
      if !plan.needed then .ok (full, none)
      else .ok (full, some
        { keepIdx := plan.keepIdx
          numRows := inp.numRows
          boundary := boundary
          decoderMetadata := decoderMetadata d boundary inp plan
          used := false })

/-- The forward context of a step the runner executes. A step that needs an eager
forward gets no graph, whatever the runner would choose otherwise. -/
def stepContext (graph : Bool) : Except String (ForwardContext F) := do
  let cudagraph := graph && !needEager d.keep inp.batch
  let md ← attachPlan d boundary inp false cudagraph
  .ok { attnMetadata := md.1, dsv41Yoco := md.2, cudagraph := cudagraph }

/-- The full-row reference of a step: no row is dropped, the decoder's
sliding-window entries are those of the masked step. -/
def maskContext (graph : Bool) : ForwardContext F where
  attnMetadata :=
    { other := inp.other
      swa := fun l => if boundary ≤ l then
          maskStep d.window d.width d.keep (inp.batch.withTables (inp.swaTable l))
        else (fullMetadata d inp).swa l
      index := (fullMetadata d inp).index }
  dsv41Yoco := none
  cudagraph := graph

end Attach

end Yoco
end Dsv41Overlay
