import Dsv41Overlay.Yoco.Forward

/-!
# A decoder layer on the kept rows

Behind the boundary a truncated forward runs its layers on the rows gathered at
`keep_idx`. Two facts about the metadata of the step make this harmless
(`view_gathered`): the compact entries are the masked ones at the kept rows, and
a row that is dropped stores nothing in the masked step. So the attention of a
layer leaves the caches that the masked attention leaves on all rows and
computes its kept rows (`sparseAttn_gathers`).

Row-indexed buffers are the delicate part. Their rows are renumbered at the
boundary, and a layer that only reads them must find them published by a layer
behind it (`indexer_gathers`).
-/

namespace Dsv41Overlay
namespace Yoco

open Batch

variable {F E A X V K B R Y : Type}

/-! ### Other block tables -/

namespace Batch

variable {batch : Batch} {table : ℕ → BlockTable}

@[simp] theorem length_withTables : (batch.withTables table).length = batch.length := by
  simp [withTables]

theorem req_withTables {i : ℕ} (hi : i < batch.length) :
    req (batch.withTables table) i = { req batch i with blockTable := table i } := by
  simp [req, withTables, List.getD_eq_getElem?_getD, hi]

/-- What does not depend on the block table is the same of every request. -/
theorem map_withTables {α : Type*} (f : BatchReq → α)
    (hf : ∀ r t, f { r with blockTable := t } = f r) :
    (batch.withTables table).map f = batch.map f := by
  refine List.ext_getElem? fun i => ?_
  rw [withTables, List.getElem?_map, List.getElem?_mapIdx, List.getElem?_map]
  cases batch[i]? with
  | none => rfl
  | some r => exact congrArg some (hf r _)

/-- A table only says where positions are stored. -/
theorem arrays_withTables : arrays (batch.withTables table) = arrays batch := by
  have hrows : ∀ i ≤ batch.length, rowStart (batch.withTables table) i = rowStart batch i := by
    intro i hi
    exact prefixSum_congr fun k hk => by rw [req_withTables (by omega)]
  have hqsl : queryStartLoc (batch.withTables table) = queryStartLoc batch := by
    unfold queryStartLoc
    rw [length_withTables]
    refine List.map_congr_left fun i hi => hrows i ?_
    have := List.mem_range.mp hi
    omega
  unfold arrays
  rw [hqsl, map_withTables _ fun _ _ => rfl, map_withTables _ fun _ _ => rfl,
    map_withTables _ fun _ _ => rfl]

theorem plan_withTables (keep : ℕ) (table : ℕ → BlockTable) :
    plan keep (batch.withTables table) = plan keep batch := by
  rw [plan, plan, arrays_withTables, length_withTables]

theorem positions_withTables : positions (batch.withTables table) = positions batch := by
  unfold positions
  rw [length_withTables]
  refine List.flatMap_congr fun i hi => ?_
  rw [req_withTables (List.mem_range.mp hi)]
  rfl

end Batch

/-! ### Compact entries are masked entries at the kept rows -/

section Rows

variable {window width keep : ℕ} {batch : Batch}

/-- **Every compact row is a masked row**, a placeholder too: below the rectangle
the masked row stores and sees nothing either. -/
theorem compactRow_eq_maskRow (hW : 0 < window) (hw : window ≤ width) {i t : ℕ}
    (hi : i < batch.length) (ht : t < (req batch i).numKept keep) :
    compactRow window width batch (plan keep batch) (keptStart keep batch i + t)
      = maskRow window width keep (req batch i) (((req batch i).rowPlan keep).first + t) := by
  cases hph : ((req batch i).rowPlan keep).placeholder with
  | false => exact compactRow_kept hW hw hi ht hph
  | true =>
    obtain ⟨hidx, hreq, hlb, hphd⟩ := compact_arrays hi ht
    have hrow : ((req batch i).rowPlan keep).first + t < (req batch i).numRows := by
      unfold BatchReq.numKept at ht
      omega
    have hlt := BatchReq.pos_lt_of_placeholder hph hrow
    have hpos : (positions batch).getD
        (rowStart batch i + (((req batch i).rowPlan keep).first + t)) 0
        = (req batch i).pos (((req batch i).rowPlan keep).first + t) := by
      rw [List.getD_eq_getElem?_getD, positions_getElem? hi hrow, Option.getD_some]
    -- the kernel leaves the row of slot `-1` empty, and so does the raised window
    have hval : decide ((0 : ℤ) ≤ -1) = false := by decide
    unfold compactRow maskRow
    simp only [hidx, hreq, hlb, hphd, hph, if_true, hpos, hval, kernelSwaRow_invalid,
      clampSwaRow_empty, if_neg (not_le.mpr hlt),
      windowRow_of_lt (hlt.trans_le (le_max_right _ _))]

theorem length_maskStep (window width keep : ℕ) (batch : Batch) :
    (maskStep window width keep batch).length = (positions batch).length := by
  rw [maskStep, length_flatMap_range, length_positions]
  exact prefixSum_congr fun k _ => by simp

theorem plan_keepIdx_lt {f : ℕ} (hf : f ∈ (plan keep batch).keepIdx) :
    f < (positions batch).length := by
  obtain ⟨j, hj⟩ := List.mem_iff_getElem?.mp hf
  obtain ⟨i, hi, t, ht, rfl⟩ := exists_compact_segment (List.getElem?_eq_some_iff.mp hj).1
  rw [plan_keepIdx_getElem? hi ht, Option.some.injEq] at hj
  have hnext : rowStart batch i + (req batch i).numRows ≤ rowStart batch batch.length :=
    prefixSum_add_le _ hi
  rw [length_positions, ← hj]
  unfold BatchReq.numKept at ht
  omega

/-- The compact sliding-window entries. -/
theorem map_compactRow (keep : ℕ) (batch : Batch) (hW : 0 < window) (hw : window ≤ width) :
    (List.range (plan keep batch).keepIdx.length).map
        (compactRow window width batch (plan keep batch))
      = gather (maskStep window width keep batch) (plan keep batch).keepIdx := by
  have hlt : ∀ f ∈ (plan keep batch).keepIdx, f < (maskStep window width keep batch).length := by
    intro f hf
    rw [length_maskStep]
    exact plan_keepIdx_lt hf
  refine List.ext_getElem? fun j => ?_
  rw [getElem?_gather hlt, List.getElem?_map]
  rcases Nat.lt_or_ge j (plan keep batch).keepIdx.length with hj | hj
  · obtain ⟨i, hi, t, ht, rfl⟩ := exists_compact_segment hj
    have hrow : ((req batch i).rowPlan keep).first + t < (req batch i).numRows := by
      unfold BatchReq.numKept at ht
      omega
    rw [List.getElem?_range hj, Option.map_some, compactRow_eq_maskRow hW hw hi ht,
      plan_keepIdx_getElem? hi ht, Option.bind_some, Nat.add_assoc, maskStep_getElem? hi hrow]
  · rw [List.getElem?_eq_none (by simpa using hj), List.getElem?_eq_none hj]
    rfl

/-- A dropped row lies below the rectangle, where the masked step stores nothing. -/
theorem maskStep_slot_of_dropped {f : ℕ} {row : DecoderRow}
    (hrow : (maskStep window width keep batch)[f]? = some row)
    (hf : f ∉ (plan keep batch).keepIdx) : row.slot < 0 := by
  have hlt : f < (positions batch).length := by
    rw [← length_maskStep window width keep batch]
    exact (List.getElem?_eq_some_iff.mp hrow).1
  obtain ⟨i, hi, t, ht, rfl⟩ := exists_full_segment hlt
  rw [maskStep_getElem? hi ht, Option.some.injEq] at hrow
  -- a row at or past the cut is kept
  have hcut : t < ((req batch i).rowPlan keep).first := by
    by_contra hge
    refine hf (List.mem_of_getElem? (i := keptStart keep batch i
      + (t - ((req batch i).rowPlan keep).first)) ?_)
    rw [plan_keepIdx_getElem? hi]
    · rw [Option.some.injEq]
      omega
    · unfold BatchReq.numKept
      omega
  rw [← hrow, maskRow]
  dsimp only
  rw [if_neg (not_le.mpr (BatchReq.pos_lt_maskLower hcut))]
  decide

/-- The requests of the compact rows. -/
theorem map_compactIndexRow (keep : ℕ) (batch : Batch) :
    ((List.range (plan keep batch).keepIdx.length).map
        (compactIndexRow batch (plan keep batch))).map (·.request)
      = gather (((List.range (positions batch).length).map (fullIndexRow batch)).map (·.request))
          (plan keep batch).keepIdx := by
  have hlt : ∀ f ∈ (plan keep batch).keepIdx, f <
      (((List.range (positions batch).length).map (fullIndexRow batch)).map
        (·.request)).length := by
    intro f hf
    simpa using plan_keepIdx_lt hf
  refine List.ext_getElem? fun j => ?_
  rw [getElem?_gather hlt, List.map_map, List.getElem?_map, List.map_map]
  rcases Nat.lt_or_ge j (plan keep batch).keepIdx.length with hj | hj
  · obtain ⟨i, hi, t, ht, rfl⟩ := exists_compact_segment hj
    have hrow : ((req batch i).rowPlan keep).first + t < (req batch i).numRows := by
      unfold BatchReq.numKept at ht
      omega
    obtain ⟨-, hreq, -, -⟩ := compact_arrays hi ht
    have hfull : (tokenToReq (queryStartLoc batch)).getD
        (rowStart batch i + (((req batch i).rowPlan keep).first + t)) 0 = i := by
      rw [List.getD_eq_getElem?_getD, queryStartLoc]
      exact congrArg (·.getD 0) (tokenToReq_getElem? (f := fun k => (req batch k).numRows) hi hrow)
    have hmem := plan_keepIdx_lt (List.mem_of_getElem? (plan_keepIdx_getElem? hi ht))
    rw [Nat.add_assoc] at hmem
    rw [List.getElem?_range hj, plan_keepIdx_getElem? hi ht, Option.bind_some, Nat.add_assoc,
      List.getElem?_map, List.getElem?_range hmem]
    exact congrArg some (hreq.trans hfull.symm)
  · rw [List.getElem?_eq_none (by simpa using hj), List.getElem?_eq_none hj]
    rfl

end Rows

/-! ### What a decoder layer sees -/

/-- The view `part` is the view `full` at the kept rows, and the rows left out
store nothing. -/
structure ViewGathered (keep : List ℕ) (part full : LayerView F) : Prop where
  other : part.other = full.other
  maxSeqLen : part.index.maxSeqLen = full.index.maxSeqLen
  swa : Gathers keep part.swa full.swa
  request : Gathers keep (part.index.rows.map (·.request)) (full.index.rows.map (·.request))
  dead : ∀ i row, full.swa[i]? = some row → i ∉ keep → row.slot < 0

section Views

variable {d : Deployment} {b : ℕ} {inp : StepInputs F}

variable (d inp) in
/-- **The decoder's metadata** is the masked metadata at the kept rows. -/
theorem view_gathered (graph : Bool) {l : ℕ} (hl : b ≤ l) :
    ViewGathered (plan d.keep inp.batch).keepIdx
      ((decoderMetadata d b inp (plan d.keep inp.batch)).view l)
      ((maskContext d b inp graph).attnMetadata.view l) := by
  have hlt : ∀ f ∈ (plan d.keep inp.batch).keepIdx, f < inp.numRows := fun f hf =>
    plan_keepIdx_lt hf
  constructor
  case other => rfl
  case maxSeqLen =>
    simp [AttnMetadata.view, maskContext, decoderMetadata, fullMetadata, hl]
  case swa =>
    constructor
    case lt_length =>
      simp only [AttnMetadata.view, maskContext, if_pos hl]
      rw [length_maskStep, positions_withTables]
      exact hlt
    case eq =>
      have h := map_compactRow d.keep (inp.batch.withTables (inp.swaTable l)) d.window_pos
        d.window_le_width
      rw [plan_withTables] at h
      simpa only [AttnMetadata.view, maskContext, decoderMetadata, if_pos hl] using h
  case request =>
    constructor
    case lt_length => simpa [AttnMetadata.view, maskContext, fullMetadata] using hlt
    case eq =>
      have h := map_compactIndexRow d.keep (inp.batch.withTables (inp.indexTable l))
      rw [plan_withTables, positions_withTables] at h
      simpa only [AttnMetadata.view, maskContext, decoderMetadata, fullMetadata, if_pos hl,
        StepInputs.numRows] using h
  case dead =>
    intro i row hrow hi
    simp only [AttnMetadata.view, maskContext, if_pos hl] at hrow
    rw [← plan_withTables d.keep (inp.swaTable l)] at hi
    exact maskStep_slot_of_dropped hrow hi

/-- Below the boundary both forwards see the stock metadata. -/
theorem maskContext_view (graph : Bool) {l : ℕ} (hl : l < b) :
    (maskContext d b inp graph).attnMetadata.view l = (fullMetadata d inp).view l := by
  simp [AttnMetadata.view, maskContext, fullMetadata, not_le.mpr hl]

end Views

/-! ### One layer on the kept rows -/

section Layer

variable {keep : List ℕ} {part full : LayerView F} {layer : DecoderLayer F E A X V K B}
  {cfg : Config} {l : ℕ}

theorem attnRows_gathers (hv : ViewGathered keep part full) {pos pos₂ : List ℕ} {xs xs₂ : List A}
    (hpos : Gathers keep pos pos₂) (hxs : Gathers keep xs xs₂) :
    Gathers keep (attnRows part pos xs) (attnRows full pos₂ xs₂) :=
  (hv.request.zipWith hv.swa Prod.mk).zipWith (hpos.zipWith hxs Prod.mk) _

/-- A row that is left out stores nothing. -/
theorem attnRows_dead (hv : ViewGathered keep part full) {pos : List ℕ} {xs : List A} {i : ℕ}
    {r : AttnRow A} (hr : (attnRows full pos xs)[i]? = some r) (hi : i ∉ keep) :
    r.swa.slot < 0 := by
  rw [attnRows, List.getElem?_zipWith] at hr
  obtain ⟨md, px, hmd, hpx, rfl⟩ : ∃ md px, ((full.index.rows.map (·.request)).zip full.swa)[i]?
      = some md ∧ (pos.zip xs)[i]? = some px ∧ (⟨md.1, px.1, md.2, px.2⟩ : AttnRow A) = r := by
    split at hr
    · next md px hmd hpx => exact ⟨md, px, hmd, hpx, by simpa using hr⟩
    · cases hr
  rw [List.getElem?_zip_eq_some] at hmd
  exact hv.dead i md.2 hmd.2 hi

/-- No more compressed positions than the top-k holds: the indexer selects all of
them and publishes no candidates. -/
def ShortContext (cfg : Config) (l : ℕ) (v : LayerView F) : Prop :=
  v.index.maxSeqLen / cfg.compressRatio l ≤ cfg.indexTopk

variable (layer) in
/-- **The indexer on the kept rows.** What it publishes it publishes for the kept
rows; a layer that publishes nothing leaves the buffers as they are. -/
theorem indexer_gathers (hv : ViewGathered keep part full) {rows rows₂ : List (AttnRow A)}
    (hrows : Gathers keep rows rows₂) {m m₂ : Memory V K} (hshared : m.shared = m₂.shared)
    (htopk : cfg.isIndexSource l = false → Selects keep m.topk m₂.topk)
    (hcand : cfg.usesCandidates l = true → ¬ ShortContext cfg l full →
      Selects keep m.candidate m₂.candidate) :
    Selects keep (layer.indexer cfg l part rows m).1 (layer.indexer cfg l full rows₂ m₂).1 ∧
      (Selects keep m.candidate m₂.candidate ∨ (cfg.isIndexSource l = true ∧
          cfg.isCandidateSource l = true ∧ ¬ ShortContext cfg l full) →
        Selects keep (layer.indexer cfg l part rows m).2
          (layer.indexer cfg l full rows₂ m₂).2) := by
  unfold DecoderLayer.indexer
  rw [hv.maxSeqLen, hv.other, hshared]
  cases hsrc : cfg.isIndexSource l with
  | false =>
    refine ⟨htopk hsrc, ?_⟩
    rintro (h | ⟨habs, -⟩)
    · exact h
    · exact absurd habs Bool.false_ne_true
  | true =>
    simp only [Bool.not_true, Bool.false_eq_true, if_false]
    by_cases hshort : full.index.maxSeqLen / cfg.compressRatio l ≤ cfg.indexTopk
    · -- a short context publishes every position and no candidates
      rw [if_pos hshort, if_pos hshort]
      refine ⟨(hrows.map _).overwrite _ _, ?_⟩
      rintro (h | ⟨-, -, hlong⟩)
      · exact h
      · exact absurd hshort hlong
    · rw [if_neg hshort, if_neg hshort]
      constructor
      · cases huse : cfg.usesCandidates l with
        | true =>
          simp only [if_true]
          exact (hrows.zipWith_selects (hcand huse hshort) _).overwrite _ _
        | false =>
          simp only [Bool.false_eq_true, if_false]
          exact (hrows.map _).overwrite _ _
      · intro h
        cases hpub : cfg.isCandidateSource l with
        | true =>
          simp only [if_true]
          exact (hrows.map _).overwrite _ _
        | false =>
          simp only [Bool.false_eq_true, if_false]
          exact h.resolve_right fun habs => by simp [hpub] at habs

/-- What a layer leaves, on the kept rows and on all rows. -/
structure LayerGathered {α : Type} (keep : List ℕ) (fresh : Prop) (out out₂ : List α × Memory V K) :
    Prop where
  rows : Gathers keep out.1 out₂.1
  swa : out.2.swa = out₂.2.swa
  shared : out.2.shared = out₂.2.shared
  topk : Selects keep out.2.topk out₂.2.topk
  /-- The candidate blocks, where they have been published for the kept rows. -/
  candidate : fresh → Selects keep out.2.candidate out₂.2.candidate

variable (layer cfg l) in
/-- **The attention on the kept rows.** It leaves the caches that the masked
attention leaves on all rows, and computes its rows. -/
theorem sparseAttn_gathers (hs : keep.Pairwise (· < ·)) (hv : ViewGathered keep part full)
    {pos pos₂ : List ℕ} {xs xs₂ : List A} (hpos : Gathers keep pos pos₂)
    (hxs : Gathers keep xs xs₂) {m m₂ : Memory V K} (hswa : m.swa = m₂.swa)
    (hshared : m.shared = m₂.shared)
    (htopk : cfg.isIndexSource l = false → Selects keep m.topk m₂.topk)
    (hcand : cfg.usesCandidates l = true → ¬ ShortContext cfg l full →
      Selects keep m.candidate m₂.candidate) :
    LayerGathered keep
      (Selects keep m.candidate m₂.candidate ∨ (cfg.isIndexSource l = true ∧
        cfg.isCandidateSource l = true ∧ ¬ ShortContext cfg l full))
      (layer.sparseAttn cfg l part pos xs m) (layer.sparseAttn cfg l full pos₂ xs₂ m₂) := by
  -- each attention row is one kept row of the full batch
  have hrows := attnRows_gathers hv hpos hxs
  obtain ⟨hix, hpub⟩ := indexer_gathers layer hv hrows hshared htopk hcand
  -- the rows left out store nothing, so the caches agree
  have hstore : storeRows (m.swa l) ((attnRows part pos xs).map fun r =>
      (r.swa.slot, layer.swaKey r.pos r.x))
      = storeRows (m₂.swa l) ((attnRows full pos₂ xs₂).map fun r =>
        (r.swa.slot, layer.swaKey r.pos r.x)) := by
    rw [(hrows.map _).eq, hswa]
    refine storeRows_gather hs (hrows.map _).lt_length ?_
    intro i row hrow hi
    rw [List.getElem?_map] at hrow
    obtain ⟨r, hr, rfl⟩ := Option.map_eq_some_iff.mp hrow
    exact attnRows_dead hv hr hi
  constructor
  case rows =>
    unfold DecoderLayer.sparseAttn
    dsimp only
    rw [hstore, hv.other, hshared]
    exact hrows.zipWith_selects hix _
  case swa =>
    unfold DecoderLayer.sparseAttn
    dsimp only
    rw [hstore, hswa]
  case shared => exact hshared
  case topk => exact hix
  case candidate => exact hpub

variable (layer cfg l) in
/-- The layer from its attention on; `m` and `m₃` are the memories its attention reads. -/
theorem attnFfn_gathers (m₁ m m₂ m₃ : Memory V K) (skip skip₂ : Bool)
    (hs : keep.Pairwise (· < ·)) (hv : ViewGathered keep part full)
    {pos pos₂ ids ids₂ : List ℕ} {xs xs₂ : List A} (hpos : Gathers keep pos pos₂)
    (hids : Gathers keep ids ids₂) (hxs : Gathers keep xs xs₂)
    (hm : (if cfg.isKvSource l && !skip then layer.produceKvFull part pos xs m₁ else m₁) = m)
    (hm₂ : (if cfg.isKvSource l && !skip₂ then layer.produceKvFull full pos₂ xs₂ m₂ else m₂) = m₃)
    (hswa : m.swa = m₃.swa) (hshared : m.shared = m₃.shared)
    (htopk : cfg.isIndexSource l = false → Selects keep m.topk m₃.topk)
    (hcand : cfg.usesCandidates l = true → ¬ ShortContext cfg l full →
      Selects keep m.candidate m₃.candidate) :
    LayerGathered keep
      (Selects keep m.candidate m₃.candidate ∨ (cfg.isIndexSource l = true ∧
        cfg.isCandidateSource l = true ∧ ¬ ShortContext cfg l full))
      (layer.attnFfn cfg l part skip pos ids xs m₁)
      (layer.attnFfn cfg l full skip₂ pos₂ ids₂ xs₂ m₂) := by
  have h := sparseAttn_gathers layer cfg l hs hv hpos hxs hswa hshared
    htopk hcand
  unfold DecoderLayer.attnFfn DecoderLayer.attn
  dsimp only
  rw [hm, hm₂]
  exact { h with rows := (hids.zipWith hxs Prod.mk).zipWith h.rows _ }

end Layer

end Yoco
end Dsv41Overlay
