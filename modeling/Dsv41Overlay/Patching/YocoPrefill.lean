import Dsv41Overlay.Patching.Tree

/-!
# The jobs of the YOCO prefill patch

`patch_yoco_prefill.py` hooks the truncation of the decoder layers' prefill into seven
files: the model and its attention, the state that plans a step, the two places of the
KV cache that know about hits and retention, the input processor and the model runner.
-/

namespace Dsv41Overlay.Patching.YocoPrefill

/-- `LOADER`. -/
def loader : List String :=
  ["",
   "",
   "# [dsv41-yoco-prefill]",
   "def _dsv41_yoco_load():",
   "    \"\"\"overlay/dsv41_yoco.py, mounted by start.sh (DSV41_YOCO_HELPER overrides).\"\"\"",
   "    import importlib.util",
   "    import os",
   "    import sys",
   "",
   "    mod = sys.modules.get(\"dsv41_yoco\")",
   "    if mod is None:",
   "        path = os.environ.get(\"DSV41_YOCO_HELPER\", \"/opt/dsv41/dsv41_yoco.py\")",
   "        spec = importlib.util.spec_from_file_location(\"dsv41_yoco\", path)",
   "        if spec is None or spec.loader is None:",
   "            raise RuntimeError(f\"[dsv41-yoco] cannot load \x7bpath\x7d\")",
   "        mod = importlib.util.module_from_spec(spec)",
   "        sys.modules[\"dsv41_yoco\"] = mod",
   "        spec.loader.exec_module(mod)",
   "    return mod",
   "",
   "",
   "_DSV41_YOCO_KEEP = _dsv41_yoco_load().Settings.from_env().require_enabled().keep"]

/-- `MODEL_FOOTER`. -/
def modelFooter : List String := loader ++
  ["",
   "",
   "def _dsv41_yoco_begin(model, positions):",
   "    return _dsv41_yoco_load().begin(model, positions)"]

/-- `RUNNER_FOOTER`. -/
def runnerFooter : List String := loader ++
  ["",
   "",
   "def _dsv41_yoco_need_eager(batch_req_state) -> bool:",
   "    \"\"\"A step with a prefill longer than KEEP runs eager: the decoder truncation and its",
   "    SWA window bound only exist in the eager forward (no piecewise replay).\"\"\"",
   "    if batch_req_state is None or not batch_req_state.has_prefill:",
   "        return False",
   "    prefilling = batch_req_state.is_prefilling_np",
   "    return bool((batch_req_state.prefill_len_np[prefilling] > _DSV41_YOCO_KEEP).any())"]

/-- The boundary hook of the decoder layer and the plan of the layer loop. -/
def model : Job where
  rel := "models/deepseek_v4_1/nvidia/model.py"
  edits :=
    [{ old :=
         ["        engram_hashes: torch.Tensor | None = None,",
          "        engram_mask: torch.Tensor | None = None,",
          "    ) -> tuple[torch.Tensor, torch.Tensor, torch.Tensor, torch.Tensor, torch.Tensor]:"]
       new :=
         ["        engram_hashes: torch.Tensor | None = None,",
          "        engram_mask: torch.Tensor | None = None,",
          "        dsv41_yoco_split: typing.Any = None,  # [dsv41-yoco-prefill]",
          "    ) -> tuple[torch.Tensor, torch.Tensor, torch.Tensor, torch.Tensor, " ++
            "torch.Tensor]:"] },
     { old :=
         ["        if self.use_sequence_parallel:",
          "            x = sp_all_gather(x)[: positions.shape[0]]",
          "",
          "        x = self.attn(positions, x, None)"]
       new :=
         ["        if dsv41_yoco_split is not None:",
          "            # [dsv41-yoco-prefill] boundary layer: compressed/index KV for every",
          "            # row, then attention and MoE on the kept rows only.",
          "            x, residual, post_mix, res_mix, attn_pre, positions, input_ids = (",
          "                dsv41_yoco_split(",
          "                    self, x, residual, post_mix, res_mix, attn_pre, positions,",
          "                    input_ids,",
          "                )",
          "            )",
          "",
          "        if self.use_sequence_parallel:",
          "            x = sp_all_gather(x)[: positions.shape[0]]",
          "",
          "        x = self.attn(positions, x, None)"] },
     { old :=
         ["        final_aux_recon: torch.Tensor | None = None  # avoid duplicate mhc_post call",
          "        for idx, layer in enumerate(",
          "            islice(self.layers, self.start_layer, self.end_layer),",
          "            start=self.start_layer,",
          "        ):",
          "            hidden_states, residual, post_mix, res_mix, pre_mix = layer(",
          "                hidden_states,",
          "                positions,",
          "                input_ids,",
          "                pre_mix,",
          "                post_mix,",
          "                res_mix,",
          "                residual,",
          "                engram_hashes,",
          "                engram_mask,",
          "            )"]
       new :=
         ["        final_aux_recon: torch.Tensor | None = None  # avoid duplicate mhc_post call",
          "        _dsv41_yoco_plan = _dsv41_yoco_begin(self, positions)  # [dsv41-yoco-prefill]",
          "        for idx, layer in enumerate(",
          "            islice(self.layers, self.start_layer, self.end_layer),",
          "            start=self.start_layer,",
          "        ):",
          "            hidden_states, residual, post_mix, res_mix, pre_mix = layer(",
          "                hidden_states,",
          "                positions,",
          "                input_ids,",
          "                pre_mix,",
          "                post_mix,",
          "                res_mix,",
          "                residual,",
          "                engram_hashes,",
          "                engram_mask,",
          "                **(",
          "                    _dsv41_yoco_plan.split_kwargs(idx)",
          "                    if _dsv41_yoco_plan is not None",
          "                    else \x7b\x7d",
          "                ),",
          "            )",
          "            if _dsv41_yoco_plan is not None and idx == _dsv41_yoco_plan.boundary:",
          "                positions, input_ids = _dsv41_yoco_plan.after_split()"] },
     { old :=
         ["            num_tokens = hidden_states.shape[0]",
          "            self._mtp_hidden_buffer[:num_tokens].copy_(hidden_states.flatten(1))"]
       new :=
         ["            if _dsv41_yoco_plan is not None:  # [dsv41-yoco-prefill]",
          "                _dsv41_yoco_plan.scatter_rows_into(",
          "                    self._mtp_hidden_buffer, hidden_states.flatten(1)",
          "                )",
          "            else:",
          "                num_tokens = hidden_states.shape[0]",
          "                self._mtp_hidden_buffer[:num_tokens].copy_(hidden_states.flatten" ++
            "(1))"] },
     { old :=
         ["        if len(aux_hidden_states) > 0:",
          "            return hidden_states, aux_hidden_states",
          "        return hidden_states"]
       new :=
         ["        if _dsv41_yoco_plan is not None:  # [dsv41-yoco-prefill] back to all rows",
          "            hidden_states, aux_hidden_states = " ++
            "_dsv41_yoco_plan.finish(hidden_states, aux_hidden_states)",
          "        if len(aux_hidden_states) > 0:",
          "            return hidden_states, aux_hidden_states",
          "        return hidden_states"] }]
  footer := some modelFooter

/-- The boundary layer skips its key-value work on the compact call. -/
def attention : Job where
  rel := "models/deepseek_v4_1/attention.py"
  edits :=
    [{ old :=
         ["        if self.compressor is not None:",
          "            # Local ref so the closure keeps a non-None type for mypy.",
          "            compressor = self.compressor"]
       new :=
         ["        if self.compressor is not None and not getattr(self, " ++
            "\"_dsv41_yoco_skip_kv\", False):",
          "            # [dsv41-yoco-prefill] skipped on the boundary layer's compact call.",
          "            # Local ref so the closure keeps a non-None type for mypy.",
          "            compressor = self.compressor"] },
     { old :=
         ["            def compressor_kv_score() -> torch.Tensor:",
          "                # Packed EXL3 compressor has no dense .weight; apply the",
          "                # fused wkv+wgate LinearEXL3 and match the fp32 mm dtype.",
          "                _layer = compressor.fused_wkv_wgate",
          "                _qm = getattr(_layer, \"quant_method\", None)",
          "                if _qm is not None and not hasattr(_layer, \"weight\"):",
          "                    return _qm.apply(_layer, hidden_states).float()",
          "                return torch.mm(",
          "                    hidden_states,",
          "                    _layer.weight.T,",
          "                    out_dtype=torch.float32,",
          "                )"]
       new :=
         ["            def compressor_kv_score() -> torch.Tensor:",
          "                # [dsv41-yoco-prefill] mirrored by dsv41_yoco.produce_kv_full.",
          "                # Packed EXL3 compressor has no dense .weight; apply the",
          "                # fused wkv+wgate LinearEXL3 and match the fp32 mm dtype.",
          "                _layer = compressor.fused_wkv_wgate",
          "                _qm = getattr(_layer, \"quant_method\", None)",
          "                if _qm is not None and not hasattr(_layer, \"weight\"):",
          "                    return _qm.apply(_layer, hidden_states).float()",
          "                return torch.mm(",
          "                    hidden_states,",
          "                    _layer.weight.T,",
          "                    out_dtype=torch.float32,",
          "                )"] },
     { old :=
         ["        indexer = self.indexer",
          "        compressor = self.compressor",
          "        aux_streams = self.aux_stream_list"]
       new :=
         ["        indexer = self.indexer",
          "        # [dsv41-yoco-prefill] no compressor/insert/index-K on the compact call",
          "        # (latent stays None, so Indexer._produce_k returns early).",
          "        compressor = None if getattr(self, \"_dsv41_yoco_skip_kv\", False) else " ++
            "self.compressor",
          "        aux_streams = self.aux_stream_list"] }]
  footer := none

/-- The plan and the compact metadata of each step. -/
def modelState : Job where
  rel := "models/deepseek_v4_1/nvidia/model_state.py"
  edits :=
    [{ old :=
         ["        if depth > 0:",
          "            # Persistent so a captured graph can read it on replay.",
          "            self.lookback_token_ids = torch.full(",
          "                (self.max_num_reqs, depth), -1, dtype=torch.int32, device=device",
          "            )"]
       new :=
         ["        if depth > 0:",
          "            # Persistent so a captured graph can read it on replay.",
          "            self.lookback_token_ids = torch.full(",
          "                (self.max_num_reqs, depth), -1, dtype=torch.int32, device=device",
          "            )",
          "        # [dsv41-yoco-prefill] validates the topology / KEEP at load time",
          "        self._dsv41_yoco = _dsv41_yoco_load().make_driver(vllm_config, model, " ++
            "device)"] },
     { old :=
         ["            model_inputs[\"lookback_token_ids\"] = self.lookback_token_ids",
          "        return model_inputs"]
       new :=
         ["            model_inputs[\"lookback_token_ids\"] = self.lookback_token_ids",
          "        return model_inputs",
          "",
          "    def prepare_attn(  # [dsv41-yoco-prefill]",
          "        self,",
          "        input_batch: InputBatch,",
          "        cudagraph_mode: Any,",
          "        block_tables: tuple[torch.Tensor, ...],",
          "        slot_mappings: torch.Tensor,",
          "        attn_groups: Any,",
          "        kv_cache_config: Any,",
          "        for_capture: bool = False,",
          "    ) -> dict[str, Any]:",
          "        attn_metadata = super().prepare_attn(",
          "            input_batch,",
          "            cudagraph_mode,",
          "            block_tables,",
          "            slot_mappings,",
          "            attn_groups,",
          "            kv_cache_config,",
          "            for_capture=for_capture,",
          "        )",
          "        # Eager prefill steps get a plan + compact decoder metadata; others pass.",
          "        return self._dsv41_yoco.attach(",
          "            attn_metadata,",
          "            input_batch,",
          "            cudagraph_mode,",
          "            block_tables,",
          "            slot_mappings,",
          "            attn_groups,",
          "            kv_cache_config,",
          "            for_capture,",
          "        )"] }]
  footer := some loader

/-- The cap on a prefix-cache hit. -/
def kvCacheManager : Job where
  rel := "v1/core/kv_cache_manager.py"
  edits :=
    [{ old :=
         ["        max_cache_hit_length = request.num_tokens - 1"]
       new :=
         ["        # [dsv41-yoco-prefill] the decoder rectangle [N - KEEP, N) is recomputed on",
          "        # every prefill: cached blocks hold decoder SWA only for their writer's",
          "        # rectangle, so a hit may not reach into it.",
          "        max_cache_hit_length = max(0, request.num_tokens - _DSV41_YOCO_KEEP)"] }]
  footer := some loader

/-- The checkpoint at the capped replay point. -/
def singleTypeKvCacheManager : Job where
  rel := "v1/core/single_type_kv_cache_manager.py"
  edits :=
    [{ old :=
         ["        reachable_boundaries = [request.num_prompt_tokens - 1]",
          "        if request.shared_prefix_boundary:"]
       new :=
         ["        reachable_boundaries = [request.num_prompt_tokens - 1]",
          "        # [dsv41-yoco-prefill] hits are capped at num_tokens - KEEP: keep the tail",
          "        # a retry of this prompt can still hit (peek block included).",
          "        _dsv41_boundary = (",
          "            request.num_prompt_tokens - _DSV41_YOCO_KEEP",
          "            - (self.block_size if self.use_eagle else 0)",
          "        )",
          "        if _dsv41_boundary > 0:",
          "            reachable_boundaries.append(_dsv41_boundary)",
          "        if request.shared_prefix_boundary:"] }]
  footer := some loader

/-- The refusal of prompt logprobs. -/
def inputProcessor : Job where
  rel := "v1/engine/input_processor.py"
  edits :=
    [{ old :=
         ["            params.verify(",
          "                self.model_config,",
          "                self.speculative_config,",
          "                self.structured_outputs_config,",
          "                self.tokenizer,",
          "            )"]
       new :=
         ["            params.verify(",
          "                self.model_config,",
          "                self.speculative_config,",
          "                self.structured_outputs_config,",
          "                self.tokenizer,",
          "            )",
          "            if params.prompt_logprobs is not None:  # [dsv41-yoco-prefill]",
          "                raise VLLMValidationError(",
          "                    \"prompt_logprobs is not available on this server: \"",
          "                    \"DSV41_YOCO_PREFILL runs decoder layers 20-39 only on the last \"",
          "                    f\"\x7b_DSV41_YOCO_KEEP\x7d prompt tokens, so earlier " ++
            "prompt positions \"",
          "                    \"have no logits\"",
          "                )"] }]
  footer := some loader

/-- Prefill steps run eager. -/
def modelRunner : Job where
  rel := "v1/worker/gpu/model_runner.py"
  edits :=
    [{ old :=
         ["            need_eager=is_profile or skip_compiled,"]
       new :=
         ["            need_eager=is_profile or skip_compiled or " ++
            "_dsv41_yoco_need_eager(batch_req_state),  # [dsv41-yoco-prefill]"] }]
  footer := some runnerFooter

/-- `patch_yoco_prefill.py`. -/
def yocoPrefill : Script where
  mark := "dsv41-yoco-prefill"
  mode := "compact"
  needsHelper := true
  jobs := [model, attention, modelState, kvCacheManager,
    singleTypeKvCacheManager, inputProcessor, modelRunner]
  mark_line := by decide
  nodup := by decide
  marks := by decide +kernel

end Dsv41Overlay.Patching.YocoPrefill
