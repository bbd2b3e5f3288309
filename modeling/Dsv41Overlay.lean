import Dsv41Overlay.Lib.System
import Dsv41Overlay.Lib.Segments
import Dsv41Overlay.Yoco.Plan
import Dsv41Overlay.Yoco.Window
import Dsv41Overlay.Yoco.Compact
import Dsv41Overlay.Yoco.MaskEq
import Dsv41Overlay.Yoco.Prefill
import Dsv41Overlay.SwaFinal.Blocks
import Dsv41Overlay.SwaFinal.Hit
import Dsv41Overlay.SwaFinal.Checkpoint
import Dsv41Overlay.SwaFinal.Run
import Dsv41Overlay.Lib.Regex
import Dsv41Overlay.Tokens.TriePattern
import Dsv41Overlay.Lib.Decimal
import Dsv41Overlay.Lib.Marker
import Dsv41Overlay.Guard.Encode
import Dsv41Overlay.Guard.Spec
import Dsv41Overlay.Guard.Clean
import Dsv41Overlay.Lib.Cells
import Dsv41Overlay.OutputSplit.Pieces
import Dsv41Overlay.OutputSplit.Split
import Dsv41Overlay.OutputSplit.Restore
import Dsv41Overlay.OutputSplit.Stream
import Dsv41Overlay.Lib.Bytes
import Dsv41Overlay.Lib.Interleave
import Dsv41Overlay.Lib.SetCache
import Dsv41Overlay.RowStore.Disk
import Dsv41Overlay.RowStore.Store
import Dsv41Overlay.RowStore.Fetch
import Dsv41Overlay.RowStore.Lookup
import Dsv41Overlay.RowStore.Calls
import Dsv41Overlay.Lib.TokenMatcher
import Dsv41Overlay.Grammar.Xgrammar
import Dsv41Overlay.Experts.Activation
import Dsv41Overlay.Lib.Cuts
import Dsv41Overlay.Engram.Shard
import Dsv41Overlay.Lib.StrongTest
import Dsv41Overlay.Engram.Layout
import Dsv41Overlay.Lib.Find
import Dsv41Overlay.StopGuard.Detokenizer
import Dsv41Overlay.RowStore.Pack
import Dsv41Overlay.RowStore.Pool
import Dsv41Overlay.RowStore.PoolRuns
import Dsv41Overlay.RowStore.PoolSound
import Dsv41Overlay.RowStore.PoolProgress
import Dsv41Overlay.Lib.Buckets
import Dsv41Overlay.Lib.Launch
import Dsv41Overlay.Experts.Routing
import Dsv41Overlay.Experts.Sorted
import Dsv41Overlay.Experts.TileLaunches
import Dsv41Overlay.Experts.FatTiers
import Dsv41Overlay.Experts.RowTiles
import Dsv41Overlay.Experts.Grouped
import Dsv41Overlay.Experts.FatTables
import Dsv41Overlay.Experts.FusedMoe
import Dsv41Overlay.Lib.Completion
import Dsv41Overlay.Lib.Rank
import Dsv41Overlay.Cooperative.Slots
import Dsv41Overlay.Cooperative.Runs
import Dsv41Overlay.Cooperative.Kernels
import Dsv41Overlay.Cooperative.Footprint
import Dsv41Overlay.Lib.Visits
import Dsv41Overlay.Cooperative.Plan
import Dsv41Overlay.Cooperative.Stream
import Dsv41Overlay.Lib.Floor
import Dsv41Overlay.SwaFinal.Optimal
import Dsv41Overlay.SwaFinal.Admission
import Dsv41Overlay.SwaFinal.Tails
import Dsv41Overlay.SwaFinal.ShortRun
import Dsv41Overlay.Yoco.HitCap
import Dsv41Overlay.Lib.Json
import Dsv41Overlay.Lib.JsonLines
import Dsv41Overlay.Lib.PyModule
import Dsv41Overlay.Bench.Rollout
import Dsv41Overlay.Bench.Loop
import Dsv41Overlay.Bench.Resume
import Dsv41Overlay.Guard.Encoder
import Dsv41Overlay.RowStore.Pin
import Dsv41Overlay.Bench.Foreign
import Dsv41Overlay.Lib.RegexSyntax
import Dsv41Overlay.Lib.Search
import Dsv41Overlay.Tokens.TrieText
import Dsv41Overlay.Lib.Cta
import Dsv41Overlay.Lib.CtaPlan
import Dsv41Overlay.Lib.CtaRun
import Dsv41Overlay.Lib.CtaNotes
import Dsv41Overlay.Lib.CtaRules
import Dsv41Overlay.Lib.ClassRuns
import Dsv41Overlay.Cooperative.RunBlock
import Dsv41Overlay.Cooperative.RunPlan
import Dsv41Overlay.Cooperative.RunThreads
import Dsv41Overlay.Cooperative.Grouping
import Dsv41Overlay.Experts.FatBlock
import Dsv41Overlay.Experts.FatStages
import Dsv41Overlay.Experts.FatPlan
import Dsv41Overlay.Experts.FatLoop
import Dsv41Overlay.Experts.FatPipeline
import Dsv41Overlay.Lib.Fallible
import Dsv41Overlay.Linear.Layer
import Dsv41Overlay.Linear.Loads
import Dsv41Overlay.Linear.Served
import Dsv41Overlay.Lib.Replace
import Dsv41Overlay.Lib.Lines
import Dsv41Overlay.Lib.TextFile
import Dsv41Overlay.Patching.Tree
import Dsv41Overlay.Patching.Runs
import Dsv41Overlay.Patching.SwaFinalWindow
import Dsv41Overlay.Patching.YocoPrefill
import Dsv41Overlay.Patching.Backport
import Dsv41Overlay.Patching.XgrammarTermination
import Dsv41Overlay.Patching.AllOrNothing
import Dsv41Overlay.KvCache.Queue
import Dsv41Overlay.KvCache.BlockMap
import Dsv41Overlay.KvCache.Pool
import Dsv41Overlay.KvCache.Keys
import Dsv41Overlay.KvCache.Counts
import Dsv41Overlay.KvCache.PoolRuns
import Dsv41Overlay.KvCache.Manager
import Dsv41Overlay.KvCache.Slots
import Dsv41Overlay.KvCache.Accounts
import Dsv41Overlay.KvCache.Holdings
import Dsv41Overlay.KvCache.Reserve
import Dsv41Overlay.KvCache.SlotRuns
import Dsv41Overlay.Lib.Rows
import Dsv41Overlay.Yoco.Forward
import Dsv41Overlay.Yoco.ForwardRuns
import Dsv41Overlay.Experts.FatNotes
import Dsv41Overlay.StopGuard.Release
import Dsv41Overlay.Guard.Emission
