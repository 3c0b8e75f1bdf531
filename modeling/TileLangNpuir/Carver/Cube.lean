import TileLangNpuir.Carver.BestFit
import TileLangNpuir.Carver.Constraints
import TileLangNpuir.Carver.Factors

/-!
# The cube policy

`AscendCubePolicy.emit_config` (`roller/policy/ascend.py`, `roller/policy/default.py`) for a node
that multiplies two matrices: the search through the tiles, the check of the buffers, the
enlargement of the reduction step and the hints that come out. The order in which tiles are taken
is a parameter, since it is computed with floating point numbers; `TileDict.priority` is the
exact one.
-/

namespace TileLangNpuir.Carver

/-- An element type. `DLDataType` keeps the number of bits in one byte. -/
structure DType : Type where
  bits : ℕ
  pos : 0 < bits
  lt : bits < 256

def DType.bytes (d : DType) : ℕ := (d.bits + 7) / 8

/-- The attributes of `AscendArch` that the policies read. -/
structure AscendArch : Type where
  computeMaxCore : ℕ
  l0aCap : ℕ
  l0bCap : ℕ
  l0cCap : ℕ
  l1Cap : ℕ
  ubCap : ℕ
  cubeM : ℕ
  cubeN : ℕ
  cubeK : ℕ
  core_pos : 0 < computeMaxCore
  cubeK_pos : 0 < cubeK

/-- A node that computes `C[M, N]` from `A[M, K]` and `B[N, K]`, with its `tensorcore_config`. -/
structure MatmulNode : Type where
  M : ℕ
  N : ℕ
  K : ℕ
  aDtype : DType
  bDtype : DType
  cDtype : DType
  axM : ℕ
  axN : ℕ
  M_pos : 0 < M
  N_pos : 0 < N
  K_pos : 0 < K

namespace MatmulNode

variable (node : MatmulNode)

def getSpaceDim : List ℕ := [node.M, node.N]

/-- `propagate_reduction_inputs`. The range of the reduction axis ends with the axis. -/
def propagateReductionInputs (tile : List ℕ) (rstep : ℕ) : (ℕ × ℕ) × (ℕ × ℕ) :=
  ((tile.getD 0 0, min node.K rstep), (tile.getD 1 0, min node.K rstep))

/-- `propagate_inputs`, cut to the shapes of the tensors. -/
def propagateInputs (tile : List ℕ) (rstep : ℕ) : (ℕ × ℕ) × (ℕ × ℕ) :=
  match node.propagateReductionInputs tile rstep with
  | ((m, r), (n, s)) => ((min m node.M, min r node.K), (min n node.N, min s node.K))

/-- `propagate_outputs`, which cuts to the shape of the first input. -/
def propagateOutputs (tile : List ℕ) : ℕ × ℕ :=
  (min (tile.getD 0 0) node.M, min (tile.getD 1 0) node.K)

/-- `footprint`: both inputs are cached, since the block reduces. -/
def footprint (tile : List ℕ) (rstep : ℕ) : ℕ :=
  match node.propagateReductionInputs tile rstep with
  | (a, b) =>
    (a.1 * a.2 * node.aDtype.bytes + 31) / 32 * 32 + (b.1 * b.2 * node.bDtype.bytes + 31) / 32 * 32

end MatmulNode

/-- `coalesced_factor` of tensors with two dimensions. -/
def coalescedFactor (subtensor tensor : ℕ × ℕ) : ℕ :=
  if subtensor.2 ≠ tensor.2 then subtensor.2 else subtensor.2 * subtensor.1

/-- `coalesced_tensor_shape`. -/
def coalescedTensorShape (subtensor tensor : ℕ × ℕ) (transactionSize : ℕ) : ℚ :=
  let bytes := subtensor.1 * subtensor.2
  if bytes = 0 then 0
  else (transactionSize * bytes : ℕ) / (min transactionSize (coalescedFactor subtensor tensor) : ℕ)

/-- `TileDict`, for one node; `tile` is its entry in `tile_map`. -/
structure TileDict : Type where
  outputTile : List ℕ
  tile : List ℕ
  rstep : ℕ
  traffic : ℚ
  smemCost : ℚ
  gridSize : ℕ
  numWave : ℕ
  valid : Bool
  deriving DecidableEq

/-- `prio`, without rounding. -/
def TileDict.priority (td : TileDict) : ℚ :=
  (td.traffic + 1) * td.numWave * (1 / 10) ^ (td.outputTile.filter (· % 16 = 0)).length

/-- `Hint`. -/
structure Hint : Type where
  block : List ℕ
  warp : List ℕ
  thread : List ℕ
  useTc : Bool
  pipelineStage : ℕ
  blockReductionDepth : Option ℕ
  rstep : List ℕ
  reduceThread : List ℕ
  deriving DecidableEq

/-- `AscendCubePolicy`, with its tags and its `custom_mem_mul`. -/
structure AscendCubePolicy : Type where
  arch : AscendArch
  node : MatmulNode
  pipelineStageTag : Option ℕ
  blockReductionDepthTag : Option ℕ
  customMemMul : ℚ

/-- `list.index`. -/
def index (l : List ℕ) (x : ℕ) : Except Error ℕ :=
  if x ∈ l then .ok (l.idxOf x) else .error (.valueError (toString x ++ " is not in list"))

/-- `x // y`. -/
def floorDiv (x y : ℕ) : Except Error ℕ :=
  if y = 0 then .error .zeroDivisionError else .ok (x / y)

/-- `x % y`. -/
def floorMod (x y : ℕ) : Except Error ℕ :=
  if y = 0 then .error .zeroDivisionError else .ok (x % y)

/-- An entry of a list. -/
def entry (l : List ℕ) (i : ℕ) : Except Error ℕ :=
  match l[i]? with
  | some x => .ok x
  | none => .error (.indexError "list index out of range")

namespace AscendCubePolicy

variable (p : AscendCubePolicy)

/-- `pipeline_stage`, which is 2 unless a tag says otherwise. -/
def pipelineStage : ℕ :=
  match p.pipelineStageTag with
  | some n => if n ≠ 0 then n else 2
  | none => 2

def blockReductionDepth : Option ℕ :=
  match p.blockReductionDepthTag with
  | some n => if n ≠ 0 then some n else none
  | none => none

/-! ## Reduction steps -/

/-- `get_node_reduce_step_candidates`. -/
def getNodeReduceStepCandidates : List ℕ :=
  (getAllFactors (p.node.K / p.arch.cubeK)).map (· * p.arch.cubeK)

/-- `_score` of the default policy. DMA is aligned to 32 bytes. -/
def stepScore (rstep : ℕ) : ℚ :=
  let (a, b) := p.node.propagateInputs [1, 1] rstep
  let score (subtensor tensor : ℕ × ℕ) (bytes : ℕ) : ℚ :=
    (if subtensor.2 * bytes % 32 = 0 then 1 else 1 / 2) * coalescedFactor subtensor tensor
  score a (p.node.M, p.node.K) p.node.aDtype.bytes
    + score b (p.node.N, p.node.K) p.node.bDtype.bytes

/-- The loop of the default policy. There is one axis, and the first of the best is taken. -/
def enlargeDefault (allSteps : List ℕ) : (iterations rstepId : ℕ) → ℕ
  | 0, rstepId => rstepId
  | iterations + 1, rstepId =>
    if rstepId + 1 = allSteps.length then rstepId
    else if p.stepScore (allSteps.getD rstepId 0) < p.stepScore (allSteps.getD (rstepId + 1) 0) then
      enlargeDefault allSteps iterations (rstepId + 1)
    else rstepId

/-- `AscendDefaultPolicy._assign_reduce_step`. -/
def assignReduceStepDefault : Except Error ℕ :=
  let allSteps := p.getNodeReduceStepCandidates
  entry allSteps (p.enlargeDefault allSteps 100 0)

/-- `basic`: the elements of a transaction. -/
def basic : ℕ := 512 * 8 / p.node.aDtype.bits

/-- `_assign_reduce_step`. -/
def assignReduceStep : Except Error ℕ :=
  if 0 < p.node.K % p.arch.cubeK then
    .ok (if p.node.K < p.basic then p.arch.cubeK else p.basic)
  else if p.node.K % p.basic = 0 then .ok p.basic
  else p.assignReduceStepDefault

/-! ## Buffers -/

/-- `_align_to_l0`. -/
def alignToL0 (size alignment : ℕ) : ℕ := (size + alignment - 1) / alignment * alignment

/-- `_check_l0_usage`. -/
def checkL0Usage (aSize bSize cSize : ℕ) : Bool :=
  aSize * p.pipelineStage ≤ p.arch.l0aCap && bSize * p.pipelineStage ≤ p.arch.l0bCap
    && cSize ≤ p.arch.l0cCap

/-- `_check_node_l0_capacity`. -/
def checkNodeL0Capacity (tile : List ℕ) (rstep : ℕ) : Bool :=
  match p.node.propagateReductionInputs tile rstep with
  | (a, b) =>
    p.checkL0Usage (alignToL0 (a.1 * a.2 * p.node.aDtype.bytes) 512)
      (alignToL0 (b.1 * b.2 * p.node.bDtype.bytes) 512)
      (alignToL0 (tile.prod * p.node.cDtype.bytes) 64)

/-- `infer_node_smem_usage`. -/
def inferNodeSmemUsage (tile : List ℕ) (rstep : ℕ) : ℕ :=
  p.node.footprint tile rstep * p.pipelineStage

/-- `_compute_shared_memory_usage`: the buffers of the node are allocated and freed. -/
def computeSharedMemoryUsage (tile : List ℕ) (rstep : ℕ) : ℚ :=
  ((BestFit.init 32).malloc (p.inferNodeSmemUsage tile rstep)).2.limit * p.customMemMul

/-- `_get_total_l0_capacity`. -/
def getTotalL0Capacity : ℕ := p.arch.l0aCap + p.arch.l0bCap + p.arch.l0cCap

/-! ## The search -/

/-- `_compute_memory_traffic`; a transaction has 32 bytes. -/
def computeMemoryTraffic (tile : List ℕ) : ℚ :=
  let (a, b) := p.node.propagateInputs tile p.node.K
  let traffic (subtensor tensor : ℕ × ℕ) (nbytes : ℕ) : ℚ :=
    coalescedTensorShape subtensor tensor (32 / nbytes) * nbytes
  traffic a (p.node.M, p.node.K) p.node.aDtype.bytes
    + traffic b (p.node.N, p.node.K) p.node.bDtype.bytes
    + traffic (p.node.propagateOutputs tile) (p.node.M, p.node.N) p.node.cDtype.bytes

/-- `_get_output_tile_map`. -/
def getOutputTileMap (tile : List ℕ) : List ℕ :=
  (tile.zip p.node.getSpaceDim).map fun (t, n) => t * n / n

/-- `compute_tile_dict`. -/
def computeTileDict (rstep : ℕ) (outputTile : List ℕ) : Except Error TileDict := do
  let tile := p.getOutputTileMap outputTile
  let traffic := p.computeMemoryTraffic tile
  let smemCost := p.computeSharedMemoryUsage tile rstep
  if p.arch.l1Cap < smemCost then
    return ⟨outputTile, tile, rstep, traffic, smemCost, 0, 0, false⟩
  let grid ← (outputTile.zip p.node.getSpaceDim).mapM fun (x, y) => floorDiv (y + x - 1) x
  let numWave := (grid.prod + p.arch.computeMaxCore - 1) / p.arch.computeMaxCore
  return ⟨outputTile, tile, rstep, traffic, smemCost, grid.prod, numWave, true⟩

/-- `simd_friendly_sizes`. -/
def simdFriendlySizes : List ℕ := [16, 32, 64, 128, 256, 512]

/-- The factors from the first entry of the initial tile on. -/
def factorSteps (n t : ℕ) : Except Error (List ℕ) := do
  let step := getAllFactors n
  return step.drop (← index step t)

/-- The steps with the sizes that suit the vector unit. -/
def addSimdSizes (steps : List ℕ) : List ℕ :=
  (steps ++ simdFriendlySizes.filter fun s =>
    s < steps.getLastD 0 * 2 ∧ steps.headD 0 < s ∧ s ∉ steps).insertionSort (· ≤ ·)

/-- The tiles that were visited, and those in the queue in the order in which they are taken. -/
structure Search : Type where
  visitedTiles : List TileDict
  queue : List TileDict

/-- The order of the queue: by priority, then by the tile. -/
def Before (prio : TileDict → ℚ) (a b : TileDict) : Prop :=
  prio a < prio b ∨ prio a = prio b ∧ a.outputTile ≤ b.outputTile

instance (prio : TileDict → ℚ) : DecidableRel (Before prio) := fun a b =>
  inferInstanceAs (Decidable (prio a < prio b ∨ prio a = prio b ∧ a.outputTile ≤ b.outputTile))

/-- `add_to_queue`. -/
def addToQueue (rstep : ℕ) (prio : TileDict → ℚ) (s : Search) (tile : List ℕ) :
    Except Error Search := do
  if tile ∈ s.visitedTiles.map (·.outputTile) then return s
  let td ← p.computeTileDict rstep tile
  return ⟨s.visitedTiles ++ [td],
    if td.valid then s.queue.orderedInsert (Before prio) td else s.queue⟩

/-- The loop over the axes: each is moved to its next step, the last axis first. -/
def neighbours (steps : List (List ℕ)) (rstep : ℕ) (prio : TileDict → ℚ) (tile : List ℕ)
    (s : Search) : Except Error Search := do
  let dimIds ← (steps.zip tile).mapM fun (step, t) => index step t
  (List.range dimIds.length).reverse.foldlM (fun s i =>
    let step := steps.getD i []
    let next := dimIds.getD i 0 + 1
    if next < step.length then p.addToQueue rstep prio s (tile.set i (step.getD next 0))
    else pure s) s

/-- The loop of `dfs_smem_tile`. It has no result when the fuel runs out. -/
def dfsLoop (steps : List (List ℕ)) (rstep : ℕ) (prio : TileDict → ℚ) :
    (fuel : ℕ) → Search → Option (Except Error Search)
  | 0, _ => none
  | fuel + 1, s =>
    match s.queue with
    | [] => some (.ok s)
    | td :: queue =>
      if 2000 < s.visitedTiles.length then some (.ok s)
      else
        match p.neighbours steps rstep prio td.outputTile ⟨s.visitedTiles, queue⟩ with
        | .error e => some (.error e)
        | .ok s => dfsLoop steps rstep prio fuel s

/-- `compute_workload_per_item`. -/
def computeWorkloadPerItem (outputTile : List ℕ) : ℚ :=
  (p.getOutputTileMap outputTile).prod / outputTile.prod

/-- `get_base_tile`: a dimension is taken whole if that makes the workload smaller. -/
def getBaseTile : List ℕ :=
  let shape := p.node.getSpaceDim
  let baseTile := shape.map fun _ => 1
  (shape.zipIdx.foldl (fun (wpi, baseTile) (n, dim) =>
    let tile := baseTile.set dim n
    if n ≠ baseTile.getD dim 0 ∧ p.computeWorkloadPerItem tile < wpi then
      (p.computeWorkloadPerItem tile, tile)
    else (wpi, baseTile)) (p.computeWorkloadPerItem baseTile, baseTile)).2

/-- `max_total_numel`, from the steps before the sizes of the vector unit are added. -/
def maxTotalNumel (steps : List (List ℕ)) : ℕ := (steps.map (·.getLastD 0)).prod

/-- What `dfs_smem_tile` does before its loop: `max_total_numel`, the steps and the search. -/
def searchStart (prio : TileDict → ℚ) (initTile : List ℕ) (rstep : ℕ) :
    Except Error (ℕ × List (List ℕ) × Search) := do
  let steps ← (p.node.getSpaceDim.zip initTile).mapM fun (n, t) => factorSteps n t
  let s ← p.addToQueue rstep prio ⟨[], []⟩ initTile
  return (maxTotalNumel steps, steps.map addSimdSizes, s)

/-- `dfs_smem_tile`, with `max_total_numel`. -/
def dfsSmemTile (fuel : ℕ) (prio : TileDict → ℚ) (initTile : List ℕ) (rstep : ℕ) :
    Option (Except Error (ℕ × List TileDict)) :=
  match p.searchStart prio initTile rstep with
  | .error e => some (.error e)
  | .ok (total, steps, s) =>
    (p.dfsLoop steps rstep prio fuel s).map fun r => r.map fun s =>
      (total, (s.visitedTiles.filter (·.valid)).insertionSort fun a b => prio a ≤ prio b)

/-! ## Hints -/

/-- `check_tile_shape_isvalid`. -/
def checkTileShapeIsvalid (td : TileDict) : Except Error Bool := do
  let tile := td.tile
  if tile.length ≤ p.node.axM ∨ tile.length ≤ p.node.axN then return false
  let blockM ← entry tile p.node.axM
  let blockN ← entry tile p.node.axN
  if blockM < p.arch.cubeM ∨ blockN < p.arch.cubeN then return false
  let rests ← (tile.zip p.node.getSpaceDim).mapM fun (x, y) => floorMod y x
  if rests.any (· ≠ 0) then return false
  if ¬p.checkNodeL0Capacity tile td.rstep then return false
  if p.arch.ubCap < td.smemCost then return false
  return !tile.any (· ≤ 0)

/-- `_check_small_tile`. -/
def checkSmallTile (tile : List ℕ) : Bool := tile.any (· ≤ 32)

/-- The loop of `_optimize`, from a step on through those after it. One axis has one candidate, so
the score decides nothing. -/
def enlarge (tile : List ℕ) (rstep : ℕ) : List ℕ → ℕ
  | [] => rstep
  | next :: rest =>
    if p.getTotalL0Capacity < p.inferNodeSmemUsage tile next then rstep
    else enlarge tile next rest

/-- `_optimize`. -/
def optimize (tile : List ℕ) (rstep : ℕ) : Except Error ℕ := do
  if rstep = 0 then throw .zeroDivisionError
  let allSteps := p.getNodeReduceStepCandidates.filter (· % rstep = 0)
  if allSteps = [] then return rstep
  let rstepId ← index allSteps rstep
  return p.enlarge tile rstep (allSteps.drop (rstepId + 1))

/-- `_expand_with_tags`. -/
def expandWithTags (rstep : ℕ) : ℕ :=
  match p.blockReductionDepth with
  | some depth => rstep * depth
  | none => rstep

/-- `_expand_reduce_axis`. -/
def expandReduceAxis (td : TileDict) : Except Error TileDict := do
  if checkSmallTile td.tile then
    let rstep ← p.optimize td.tile td.rstep
    return { td with
      rstep := p.expandWithTags rstep
      smemCost := p.computeSharedMemoryUsage td.tile rstep }
  return { td with rstep := p.expandWithTags td.rstep }

/-- `_assign_block_size`. -/
def assignBlockSize (td : TileDict) : Except Error (Option Hint) := do
  let tile := td.tile
  let tileM ← entry tile p.node.axM
  let tileN ← entry tile p.node.axN
  if tileM < p.arch.cubeM ∨ tileN < p.arch.cubeN then return none
  let cubeTile := ((tile.map fun _ => 1).set p.node.axM p.arch.cubeM).set p.node.axN p.arch.cubeN
  -- what `tensorcore_legalization` keeps
  let last (l : List ℕ) := l.drop (l.length - 2)
  return some {
    block := last tile
    warp := last cubeTile
    thread := tile.map fun _ => 1
    useTc := true
    pipelineStage := p.pipelineStage
    blockReductionDepth := p.blockReductionDepth
    rstep := [td.rstep]
    reduceThread := [1] }

/-- The loop over the candidates. `recommend_block_size` has one size, so a tile has one hint at
most. -/
def emitLoop (topk : ℕ) : List TileDict → List Hint → Except Error (List Hint)
  | [], results => .ok results
  | td :: tds, results => do
    if ¬(← p.checkTileShapeIsvalid td) then emitLoop topk tds results
    else
      let td ← p.expandReduceAxis td
      let hint ← p.assignBlockSize td
      let results := results ++ hint.toList
      if topk ≤ results.length then return results else emitLoop topk tds results

/-- `max_numel_threshold`. -/
def maxNumelThreshold : ℕ := p.arch.ubCap / p.node.cDtype.bytes

/-- `tiny_kernel`. -/
def tinyKernel (maxTotalNumel : ℕ) : Bool := maxTotalNumel < 128 * 1024

/-- `stop_numel`. -/
def stopNumel (maxTotalNumel : ℕ) : ℕ :=
  if tinyKernel maxTotalNumel then
    min (1024 / p.node.cDtype.bytes) (maxTotalNumel / (p.arch.computeMaxCore * 2))
  else 1024 / p.node.cDtype.bytes

/-- The loop that verifies the results; `numel` is `calculate_tile_numel`. -/
def verify {α : Type} (numel : α → ℕ) (topk maxTotalNumel : ℕ) (results : List α) : List α :=
  results.foldl (fun verified result =>
    let threshold :=
      if verified.length < topk / 2 ∨ tinyKernel maxTotalNumel then 0
      else p.stopNumel maxTotalNumel + 128
    if numel result ≤ p.maxNumelThreshold ∧ threshold ≤ numel result then verified ++ [result]
    else verified) []

/-- `emit_config`. -/
def emitConfig (fuel : ℕ) (prio : TileDict → ℚ) (topk : ℕ) : Option (Except Error (List Hint)) :=
  match p.assignReduceStep with
  | .error e => some (.error e)
  | .ok rstep =>
    (p.dfsSmemTile fuel prio p.getBaseTile rstep).map fun r => do
      let (total, candidates) ← r
      let results ← p.emitLoop topk candidates []
      return p.verify (fun hint => hint.block.prod) topk total results

end AscendCubePolicy

end TileLangNpuir.Carver
