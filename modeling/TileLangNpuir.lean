import TileLangNpuir.Lib.Layers
import TileLangNpuir.Lib.CountedLoop
import TileLangNpuir.Lib.RowMajor
import TileLangNpuir.Lib.Footprint
import TileLangNpuir.Codegen.Tir
import TileLangNpuir.Codegen.Mlir
import TileLangNpuir.Codegen.Dev
import TileLangNpuir.Codegen.Scoping
import TileLangNpuir.Codegen.Carried
import TileLangNpuir.Codegen.Sound
import TileLangNpuir.LoopVectorize.Expr
import TileLangNpuir.LoopVectorize.Tile
import TileLangNpuir.LoopVectorize.Decompose
import TileLangNpuir.LoopVectorize.Broadcast
import TileLangNpuir.LoopVectorize.Emission
import TileLangNpuir.LoopVectorize.Operand
import TileLangNpuir.LoopVectorize.Value
import TileLangNpuir.LoopVectorize.Hoist
import TileLangNpuir.LoopVectorize.HoistRun
import TileLangNpuir.LoopVectorize.Merge
import TileLangNpuir.LoopVectorize.Fission
import TileLangNpuir.AllocPlan.Locator
import TileLangNpuir.AllocPlan.Fate
import TileLangNpuir.Lib.Runs
import TileLangNpuir.Statectl.Machine
import TileLangNpuir.Statectl.Budget
import TileLangNpuir.Statectl.Terminal
import TileLangNpuir.Statectl.Order
import TileLangNpuir.Statectl.Timeline
import TileLangNpuir.Statectl.Migration
import TileLangNpuir.Lib.Box
import TileLangNpuir.Bf16.Legalize
import TileLangNpuir.Bf16.Address
import TileLangNpuir.Lib.Structured
import TileLangNpuir.Bf16.Walk
import TileLangNpuir.Bf16.Execute
import TileLangNpuir.Bf16.Copies
import TileLangNpuir.KernelCache.Key
import TileLangNpuir.KernelCache.Cache
import TileLangNpuir.KernelCache.Artefacts
import TileLangNpuir.SimtLoad.Rewrite
import TileLangNpuir.SimtLoad.Sound
import TileLangNpuir.Lib.XorRange
import TileLangNpuir.GemmLayout.Layouts
import TileLangNpuir.GemmLayout.Distinct
import TileLangNpuir.GemmLayout.Within
import TileLangNpuir.Lib.Words
import TileLangNpuir.Signature.Parse
import TileLangNpuir.Signature.Agree
import TileLangNpuir.Lib.Replace
import TileLangNpuir.GridText.Substitute
import TileLangNpuir.GridText.Replacement
import TileLangNpuir.GridText.Right
import TileLangNpuir.SafeMemory.Legalize
import TileLangNpuir.SafeMemory.Safe
import TileLangNpuir.ScalarCache.Lower
import TileLangNpuir.ScalarCache.Denote
import TileLangNpuir.ScalarCache.Block
import TileLangNpuir.Lib.Strided
import TileLangNpuir.CopyPlan.Plan
import TileLangNpuir.CopyPlan.Align
import TileLangNpuir.CopyPlan.Moves
import TileLangNpuir.JitLaunch.Launch
import TileLangNpuir.JitLaunch.Bindings
import TileLangNpuir.JitLaunch.Agree
import TileLangNpuir.SharedMem.Linear
import TileLangNpuir.SharedMem.Liveness
import TileLangNpuir.SharedMem.Reorder
import TileLangNpuir.SharedMem.Coverage
import TileLangNpuir.SharedMem.Plan
import TileLangNpuir.SharedMem.PlanRun
import TileLangNpuir.SharedMem.Offsets
import TileLangNpuir.LoopVectorize.Floor
import TileLangNpuir.LoopVectorize.Bounds
import TileLangNpuir.LoopVectorize.Depth
import TileLangNpuir.LoopVectorize.Renumber
import TileLangNpuir.LoopVectorize.Fallback
import TileLangNpuir.Codegen.IntCast
import TileLangNpuir.DevTensor.CopyRegion
import TileLangNpuir.DevTensor.VectorRegion
import TileLangNpuir.DevTensor.Whole
import TileLangNpuir.ApiMemref.Binary
import TileLangNpuir.ApiMemref.Align
import TileLangNpuir.ApiMemref.Dot
import TileLangNpuir.Frontend.Operand
import TileLangNpuir.Frontend.Shape
import TileLangNpuir.Lib.Reduction
import TileLangNpuir.Frontend.Tile
import TileLangNpuir.Frontend.Reduce
import TileLangNpuir.Lib.Numbering
import TileLangNpuir.Pipeline.Plan
import TileLangNpuir.Pipeline.Legal
import TileLangNpuir.Carver.Factors
import TileLangNpuir.Carver.Constraints
import TileLangNpuir.Carver.BestFit
import TileLangNpuir.Carver.Cube
import TileLangNpuir.Lib.Returns
import TileLangNpuir.Carver.Anneal
import TileLangNpuir.Carver.CubeSteps
import TileLangNpuir.Carver.CubeSearch
import TileLangNpuir.Carver.CubeFits
import TileLangNpuir.Lib.Affine
import TileLangNpuir.Carver.ShapeInference
import TileLangNpuir.Carver.TileReads
import TileLangNpuir.Carver.ShapeMapping
import TileLangNpuir.Carver.ShapeRegions
import TileLangNpuir.Carver.ShapeExtents
import TileLangNpuir.Carver.ShapeCovers
import TileLangNpuir.DevTensor.Collapse
import TileLangNpuir.ApiMemref.RankReduced
import TileLangNpuir.Lib.Reassociation
import TileLangNpuir.DevTensor.Reshape
import TileLangNpuir.LoopVectorize.RegionMerge
import TileLangNpuir.Lib.Schedule
import TileLangNpuir.Tir.Program
import TileLangNpuir.Tir.Substitute
import TileLangNpuir.Pipeline.Inject
import TileLangNpuir.Pipeline.Versions
import TileLangNpuir.Pipeline.Emitted
import TileLangNpuir.Pipeline.Rounds
import TileLangNpuir.Pipeline.Injected
import TileLangNpuir.Pipeline.Planned
import TileLangNpuir.Lib.Placement
import TileLangNpuir.SharedMem.Merged
import TileLangNpuir.Lib.CommitQueue
import TileLangNpuir.Pipeline.Async
import TileLangNpuir.Pipeline.Waits
import TileLangNpuir.Pipeline.Completed
