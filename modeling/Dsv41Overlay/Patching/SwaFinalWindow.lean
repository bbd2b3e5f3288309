import Dsv41Overlay.Patching.Tree

/-!
# The jobs of the final-window patch

`patch_swa_final_window.py` hooks the caching of a request's final sliding windows into
vLLM's KV cache: `SlidingWindowManager` holds more blocks below the window, and the two
functions that free a request's blocks call `_dsv41_swa_final_window` first.
-/

namespace Dsv41Overlay.Patching.SwaFinalWindow

/-- `STM_FOOTER`. -/
def stmFooter : List String :=
  ["",
   "",
   "# [dsv41-swa-final-window]",
   "def _dsv41_swa_final_require_enabled() -> None:",
   "    import os",
   "",
   "    mode = os.environ.get(\"DSV41_SWA_FINAL_WINDOW\", \"\") or \"off\"",
   "    if mode != \"keep\":",
   "        raise RuntimeError(",
   "            \"[dsv41-swa-final-window] vLLM carries the final-window patch but \"",
   "            f\"DSV41_SWA_FINAL_WINDOW=\x7bmode!r\x7d; start a fresh container " ++
     "(start.sh only \"",
   "            \"patches when keep)\"",
   "        )",
   "",
   "",
   "def _dsv41_swa_final_keep() -> int:",
   "    \"\"\"Tokens the YOCO overlay recomputes at the end of every prefill, 0 when it is off.",
   "    Its hits stop KEEP before the prompt end, so a second checkpoint is kept that far " ++
     "back.\"\"\"",
   "    import os",
   "",
   "    if (os.environ.get(\"DSV41_YOCO_PREFILL\", \"\") or \"off\") == \"off\":",
   "        return 0",
   "    raw = os.environ.get(\"DSV41_YOCO_KEEP_TOKENS\", \"\") or \"140\"",
   "    if not raw.isdigit() or int(raw) < 1:",
   "        raise RuntimeError(f\"[dsv41-swa-final-window] bad " ++
     "DSV41_YOCO_KEEP_TOKENS=\x7braw!r\x7d\")",
   "    return int(raw)",
   "",
   "",
   "def _dsv41_swa_final_hold_tokens(window, block_size, alignment, peek_blocks, keep) -> int:",
   "    \"\"\"Tokens kept below the window so that, when the request is freed after C computed",
   "    tokens (frees so far used <= C), the tail of each final checkpoint B is allocated.",
   "    The tail is the blocks [B/bs + peek - need, B/bs + peek), need = ceil((W-1)/bs) + peek;",
   "    the free keeps blocks from floor((C - W + 1 - e) / bs). Worst cases:",
   "      B_end  = align(floor_bs(C) - peek*bs)         >= C - (A + peek*bs - 1)",
   "      B_yoco = align(T - KEEP - peek*bs), T >= C    >= C - (KEEP + A + peek*bs - 1)\"\"\"",
   "    lag = alignment + peek_blocks * block_size - 1 + keep",
   "    span = -(-(window - 1) // block_size) * block_size",
   "    return max(0, lag - (window - 1) + span)",
   "",
   "",
   "def _dsv41_swa_final_boundaries(num_computed, num_tokens, block_size, alignment, use_eagle,",
   "                                keep) -> list:",
   "    \"\"\"Hit lengths a freed request leaves: the newest checkpoint its computed blocks",
   "    complete, and under YOCO the newest one any continuation (N >= T) may still use",
   "    (a hit plus its peek block must stay <= N - KEEP). Only complete tails count.\"\"\"",
   "    peek = block_size if use_eagle else 0",
   "    full = num_computed // block_size * block_size",
   "    hits = \x7b(full - peek) // alignment * alignment\x7d",
   "    if keep:",
   "        hits.add((num_tokens - keep - peek) // alignment * alignment)",
   "    return sorted(h for h in hits if h >= alignment and h + peek <= full)",
   "",
   "",
   "def _dsv41_swa_final_cache(manager, request, num_computed: int) -> list:",
   "    \"\"\"Hash the final checkpoints' tails of one SWA group (see " ++
     "kv_cache_manager.free).\"\"\"",
   "    blocks = manager.req_to_blocks.get(request.request_id)",
   "    if not blocks or not manager.enable_caching:",
   "        return []",
   "    bs = manager.block_size",
   "    num_computed = min(num_computed, len(blocks) * bs)",
   "    need = manager._contiguous_blocks_for_hit(",
   "        manager.sliding_window, bs, manager.use_eagle",
   "    )",
   "    shift = 1 if manager.use_eagle else 0",
   "    hits, spans = [], []",
   "    for hit in _dsv41_swa_final_boundaries(",
   "        num_computed,",
   "        request.num_tokens,",
   "        bs,",
   "        manager.cache_hit_alignment_tokens,",
   "        manager.use_eagle,",
   "        _dsv41_swa_final_keep(),",
   "    ):",
   "        end = hit // bs + shift",
   "        start = max(0, end - need)  # a run from block 0 is a hit even when shorter",
   "        # A block freed before the hold or a hit's null padding: no usable tail here.",
   "        if any(blocks[i].is_null for i in range(start, end)):",
   "            continue",
   "        hits.append(hit)",
   "        spans.append((start, end))",
   "    if not spans:",
   "        return []",
   "    lo = min(s for s, _ in spans)",
   "    hi = max(e for _, e in spans)",
   "    mask = [False] * (hi - lo)",
   "    for s, e in spans:",
   "        for i in range(s, e):",
   "            mask[i - lo] = blocks[i].block_hash is None",
   "    if any(mask):",
   "        manager.block_pool.cache_full_blocks(",
   "            request=request,",
   "            blocks=blocks,",
   "            num_cached_blocks=lo,",
   "            num_full_blocks=hi,",
   "            block_size=bs,",
   "            kv_cache_group_id=manager.kv_cache_group_id,",
   "            block_mask=mask,",
   "        )",
   "    return hits",
   "",
   "",
   "_dsv41_swa_final_require_enabled()"]

/-- `KVM_FOOTER`. -/
def kvmFooter : List String :=
  ["",
   "",
   "# [dsv41-swa-final-window]",
   "def _dsv41_swa_final_window(kv_cache_manager, request) -> None:",
   "    \"\"\"Before a request's blocks go back to the pool (finish, abort, preemption), cache",
   "    the sliding-window tail of its final checkpoint(s). Only processed tokens count: not",
   "    a step still in flight, not tokens multi-module MTP may re-prefill.\"\"\"",
   "    if not kv_cache_manager.enable_caching:",
   "        return",
   "    from vllm.v1.core.single_type_kv_cache_manager import (",
   "        SlidingWindowManager,",
   "        _dsv41_swa_final_cache,",
   "    )",
   "",
   "    coordinator = kv_cache_manager.coordinator",
   "    num_computed = (",
   "        min(",
   "            request.num_computed_tokens - request.num_in_flight_tokens,",
   "            request.num_computed_tokens - getattr(request, \"num_output_placeholders\", 0),",
   "            request.num_tokens,",
   "        )",
   "        - coordinator.num_reprefillable_tokens",
   "    )",
   "    if num_computed <= 0:",
   "        return",
   "    try:",
   "        hits = set()",
   "        for manager in coordinator.single_type_managers:",
   "            if isinstance(manager, SlidingWindowManager):",
   "                hits.update(_dsv41_swa_final_cache(manager, request, num_computed))",
   "    except Exception:",
   "        # Never block a free: the request's blocks are released uncached, as stock.",
   "        logger.exception(",
   "            \"[dsv41-swa-final-window] caching the final window of %s failed\",",
   "            request.request_id,",
   "        )",
   "        return",
   "    global _DSV41_SWA_FINAL_LOGGED",
   "    if hits and not _DSV41_SWA_FINAL_LOGGED:",
   "        # Once per process, outside the try: *_once dedups on hashable args only, and",
   "        # the request id differs per call, so it neither logged once nor took a list.",
   "        _DSV41_SWA_FINAL_LOGGED = True",
   "        logger.info(",
   "            \"[dsv41-swa-final-window] caching final sliding windows (first: %s, \"",
   "            \"%d computed tokens, checkpoints %s)\",",
   "            request.request_id,",
   "            num_computed,",
   "            \", \".join(str(hit) for hit in sorted(hits)),",
   "        )",
   "",
   "",
   "_DSV41_SWA_FINAL_LOGGED = False"]

/-- The sliding-window manager. -/
def singleTypeKvCacheManager : Job where
  rel := "v1/core/single_type_kv_cache_manager.py"
  edits :=
    [{ old :=
         ["        # Extra trailing tokens to retain below the window (never attended) so a",
          "        # multi-module MTP store-side lag can still reconstruct the window from",
          "        # cached blocks.",
          "        self.extra_retained_tokens = kv_cache_spec.extra_retained_tokens"]
       new :=
         ["        # Extra trailing tokens to retain below the window (never attended) so a",
          "        # multi-module MTP store-side lag can still reconstruct the window from",
          "        # cached blocks.",
          "        self.extra_retained_tokens = kv_cache_spec.extra_retained_tokens",
          "        # [dsv41-swa-final-window] keep the newest aligned window allocated until",
          "        # the request is freed (assume the DSpark peek block: use_eagle is set",
          "        # later), and admit with the same extra blocks.",
          "        _dsv41_hold = _dsv41_swa_final_hold_tokens(",
          "            self.sliding_window,",
          "            self.block_size,",
          "            self.scheduler_block_size,",
          "            1,",
          "            _dsv41_swa_final_keep(),",
          "        )",
          "        self.extra_retained_tokens += _dsv41_hold",
          "        if self._max_admission_blocks_per_request is not None:",
          "            self._max_admission_blocks_per_request += cdiv(_dsv41_hold, " ++
            "self.block_size)",
          "        logger.info_once(",
          "            \"[dsv41-swa-final-window] sliding-window groups keep %d tokens below \"",
          "            \"the window (+%d admission blocks per request)\",",
          "            _dsv41_hold,",
          "            cdiv(_dsv41_hold, self.block_size),",
          "        )"] }]
  footer := some stmFooter

/-- The functions that free a request's blocks. -/
def kvCacheManager : Job where
  rel := "v1/core/kv_cache_manager.py"
  edits :=
    [{ old :=
         ["        self.coordinator.free(request.request_id)"]
       new :=
         ["        _dsv41_swa_final_window(self, request)  # [dsv41-swa-final-window]",
          "        self.coordinator.free(request.request_id)"] },
     { old :=
         ["        return self.coordinator.pop_blocks_for_free(request.request_id)"]
       new :=
         ["        _dsv41_swa_final_window(self, request)  # [dsv41-swa-final-window]",
          "        return self.coordinator.pop_blocks_for_free(request.request_id)"] }]
  footer := some kvmFooter

/-- `patch_swa_final_window.py`. -/
def swaFinalWindow : Script where
  mark := "dsv41-swa-final-window"
  mode := "keep"
  needsHelper := false
  jobs := [singleTypeKvCacheManager, kvCacheManager]
  mark_line := by decide
  nodup := by decide
  marks := by decide +kernel

end Dsv41Overlay.Patching.SwaFinalWindow
