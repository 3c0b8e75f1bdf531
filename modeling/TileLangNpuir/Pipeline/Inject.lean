import TileLangNpuir.Pipeline.Plan
import TileLangNpuir.Tir.Substitute

/-!
# `InjectSoftwarePipeline`

`src/transform/inject_pipeline.cc`: a loop whose statements have stages and orders becomes a
prologue, a body and an epilogue. A round of them runs the statements by their order, each for
the iteration that is its stage behind. Buffers that are written in one stage and read in a later
one get several versions.

Blocks are listed in their original order. The async annotations are in `Pipeline.Async`.
-/

namespace TileLangNpuir.Pipeline

open Tir

/-- A `Block` of the pipeline with its `PipelineAnnotation`. -/
structure PipelineBlock (R : Type) : Type where
  body : Stmt
  reads : List (BufferRegion Buffer R)
  writes : List (BufferRegion Buffer R)
  stage : ℤ
  order : ℤ
  async : Bool

/-- `pipeline_loop_`. -/
structure PipelineLoop : Type where
  loopVar : Var
  min : Expr
  extent : Expr

/-- What the pass asks of `arith::Analyzer`. A variable may be bound to a range. -/
structure Analyzer : Type where
  /-- `CanProveEqual(e, 1)` -/
  provesOne : Expr → Bool
  /-- `CanProve(!c)` -/
  provesNot : Option (Var × Expr × Expr) → Expr → Bool
  provesOne_sound : ∀ e, provesOne e = true → ∀ env m, e.eval env m = 1
  provesNot_sound : ∀ range c, provesNot range c = true → ∀ env m,
    (∀ r ∈ range, r.2.1.eval env m ≤ env r.1 ∧ env r.1 < r.2.2.eval env m) → c.eval env m = 0

/-! ## Versions -/

section

variable {R : Type} (mayConflict : R → R → Bool) (info : List (PipelineBlock R))

/-- `std::find_if(block->writes..)`: the first region of the buffer. -/
def regionOf (regions : List (BufferRegion Buffer R)) (buffer : Buffer) : Option R :=
  (regions.find? fun r => r.buffer = buffer).map BufferRegion.region

def PipelineBlock.writesTo (b : PipelineBlock R) (buffer : Buffer) : Bool :=
  b.writes.any fun r => r.buffer = buffer

def PipelineBlock.readsFrom (b : PipelineBlock R) (buffer : Buffer) : Bool :=
  b.reads.any fun r => r.buffer = buffer

/-- `max_stage_`. -/
def maxStage : ℤ := info.foldl (fun n b => max n b.stage) (-1)

/-- `BufferAccessInfo`. -/
structure BufferAccessInfo : Type where
  /-- the defining stage of the buffer -/
  defStage : ℤ
  /-- the last using stage of the buffer -/
  useStage : ℤ

/-- `info.def`, over the writes. -/
def defStage (buffer : Buffer) : ℤ :=
  info.foldl
    (fun d b => if b.writesTo buffer then (if d = -1 then b.stage else min d b.stage) else d) (-1)

/-- `info.use`, over the reads. -/
def useStage (buffer : Buffer) : ℤ :=
  info.foldl (fun u b => if b.readsFrom buffer then max u b.stage else u) (-1)

/-- `infos.at(buffer)`: a buffer that no block accesses has no entry. -/
def getBufferAccessInfo (buffer : Buffer) : Option BufferAccessInfo :=
  if info.any fun b => b.writesTo buffer || b.readsFrom buffer then
    some ⟨defStage info buffer, useStage info buffer⟩
  else none

/-- `need_multi_version`. -/
def needMultiVersion (buffer : Buffer) : Bool :=
  info.any fun writer => (regionOf writer.writes buffer).any fun written =>
    info.any fun reader => (regionOf reader.reads buffer).any fun read =>
      decide (writer.order < reader.order) && decide (writer.stage < reader.stage) &&
        mayConflict written read

def computeBufferVersions (buffer : Buffer) (access : BufferAccessInfo) : ℤ :=
  if access.defStage = -1 then 1
  else
    let numVersions := access.useStage - access.defStage + 1
    if 2 ≤ numVersions ∧ needMultiVersion mayConflict info buffer = false then numVersions - 1
    else numVersions

/-- `RewriteAllocBuffer`. -/
def rewriteAllocBuffer (buffer : Buffer) (numVersions : ℤ) : Buffer :=
  { buffer with shape := numVersions :: buffer.shape }

/-- The versions of a buffer of the pipeline; `1` where it is not rewritten. -/
def versions (buffer : Buffer) : ℤ :=
  ((getBufferAccessInfo info buffer).map (computeBufferVersions mayConflict info buffer)).getD 1

/-- `buffer_remap_`. -/
def bufferRemap (pipelineAllocs : List Buffer) (buffer : Buffer) : Option Buffer :=
  if buffer ∈ pipelineAllocs ∧ 1 < versions mayConflict info buffer then
    some (rewriteAllocBuffer buffer (versions mayConflict info buffer))
  else none

end

/-! ## `PipelineBodyRewriter` -/

section

variable (remap : Buffer → Option Buffer) (loop : PipelineLoop)

/-- `new_buffer->shape[0]`. -/
def numVersions (newBuffer : Buffer) : Expr := .int (newBuffer.shape.headD 1)

/-- `floormod(loop_var - min, new_buffer->shape[0])`. -/
def version (newBuffer : Buffer) : Expr :=
  .floormod ((Expr.var loop.loopVar).sub loop.min) (numVersions newBuffer)

mutual

def rewriteExpr : Expr → Expr
  | .int n => .int n
  | .var x => .var x
  | .op f args => .op f (rewriteExprs args)
  | .load b indices =>
    match remap b with
    | none => .load b (rewriteExprs indices)
    | some newBuffer => .load newBuffer (.cons (version loop newBuffer) (rewriteExprs indices))

def rewriteExprs : Exprs → Exprs
  | .nil => .nil
  | .cons e es => .cons (rewriteExpr e) (rewriteExprs es)

end

/-- `RewriteBufferAccess`. -/
def rewriteBufferAccess (p : AccessPtr) : AccessPtr :=
  let offset := rewriteExpr remap loop p.offset
  let extent := rewriteExpr remap loop p.extent
  match remap p.buffer with
  | none => ⟨p.buffer, offset, extent⟩
  | some newBuffer =>
    -- `loop_var` here, not `loop_var - min`
    let skip := (Expr.floormod (.var loop.loopVar) (numVersions newBuffer)).mul
      (.int p.buffer.shape.prod)
    ⟨newBuffer, offset.add skip, extent⟩

def rewriteStmt : Stmt → Stmt
  | .nop => .nop
  | .seq s t => .seq (rewriteStmt s) (rewriteStmt t)
  | .store b value indices =>
    let value := rewriteExpr remap loop value
    let indices := rewriteExprs remap loop indices
    match remap b with
    | none => .store b value indices
    | some newBuffer => .store newBuffer value (.cons (version loop newBuffer) indices)
  | .call f ptrs args =>
    .call f (ptrs.map (rewriteBufferAccess remap loop)) (rewriteExprs remap loop args)
  | .ifThen c body => .ifThen (rewriteExpr remap loop c) (rewriteStmt body)
  | .ifThenElse c s t => .ifThenElse (rewriteExpr remap loop c) (rewriteStmt s) (rewriteStmt t)
  | .forLoop x min extent body =>
    .forLoop x (rewriteExpr remap loop min) (rewriteExpr remap loop extent) (rewriteStmt body)
  | .letStmt x value body => .letStmt x (rewriteExpr remap loop value) (rewriteStmt body)

end

/-! ## `PipelineRewriter` -/

/-- `SeqStmt`. -/
def seqAll : List Stmt → Stmt
  | [] => .nop
  | s :: ss => .seq s (seqAll ss)

/-- The statement under the condition around the loop body, if there is one. -/
def guardedBy : Option Expr → Stmt → Stmt
  | none, s => s
  | some c, s => .ifThen c s

/-- `RewrittenBlockInfo`. -/
structure RewrittenBlock : Type where
  stage : ℤ
  order : ℤ
  predicate : Expr
  body : Stmt
  accessIndex : Expr
  isAsync : Bool

/-- What `EmitImpl` reads: the loop, the condition around its body, `buffer_remap_` and
`max_stage_`. -/
structure Rewriter : Type where
  analyzer : Analyzer
  loop : PipelineLoop
  predicateCondition : Option Expr
  remap : Buffer → Option Buffer
  maxStage : ℤ

namespace Rewriter

variable {R : Type} (P : Rewriter)

/-- `pipeline_loop_->min + pipeline_loop_->extent`. -/
def stop : Expr := P.loop.min.add P.loop.extent

/-- `inbound`. -/
def inbound (needBoundCheck : Bool) (skewed : Expr) : Expr :=
  if needBoundCheck then (P.loop.min.le skewed).and (skewed.lt P.stop) else .int 1

/-- The block for one round; nothing where it cannot be in bounds. -/
def rewriteBlock (start stop : Expr) (newVar : Var) (needBoundCheck : Bool)
    (b : PipelineBlock R) : Option RewrittenBlock :=
  let isUnitLoop := P.analyzer.provesOne (stop.sub start)
  let newLoopVar := if isUnitLoop then start else .var newVar
  let skewed := newLoopVar.sub (.int b.stage)
  let inbound := P.inbound needBoundCheck skewed
  let range := if isUnitLoop then none else some (newVar, start, stop)
  if P.analyzer.provesNot range inbound then none
  else
    let newBlock := rewriteStmt P.remap P.loop b.body
    let delta := start.sub P.loop.min
    let index := if isUnitLoop then skewed else skewed.add delta
    let inbound :=
      if isUnitLoop then inbound else Expr.subst newVar ((Expr.var newVar).add delta) inbound
    let newBlock := newBlock.subst P.loop.loopVar index
    let condition := P.predicateCondition.map (Expr.subst P.loop.loopVar index)
    some ⟨b.stage, b.order, inbound, guardedBy condition newBlock, index, b.async⟩

/-- `EmitImpl`. -/
def emitImpl (ordered : List (PipelineBlock R)) (start stop : Expr) (newVar : Var)
    (needBoundCheck : Bool) : Stmt :=
  let extent := stop.sub start
  let blocks := ordered.filterMap (P.rewriteBlock start stop newVar needBoundCheck)
  let newLoop := seqAll (blocks.map fun b => .ifThen b.predicate b.body)
  if blocks = [] ∨ P.analyzer.provesOne extent then newLoop
  else .forLoop newVar P.loop.min extent newLoop

/-- The prologue, the body and the epilogue, each with a variable of its own. -/
def emitAll (ordered : List (PipelineBlock R)) (newVars : Var × Var × Var) : Stmt :=
  let filled := P.loop.min.add (.int P.maxStage)
  .seq (P.emitImpl ordered P.loop.min filled newVars.1 true)
    (.seq (P.emitImpl ordered filled P.stop newVars.2.1 false)
      (P.emitImpl ordered P.stop (P.stop.add (.int P.maxStage)) newVars.2.2 true))

end Rewriter

/-! ## `PipelineInjector` -/

section

variable {R : Type}

/-- `ordered_stmts_`: an order outside the range is an error. -/
def orderedStmts (info : List (PipelineBlock R)) : Option (List (PipelineBlock R)) :=
  (List.range info.length).mapM fun k : ℕ => info.find? fun b => b.order = (k : ℤ)

/-- `dst` reads a buffer that `src` writes. -/
def PipelineBlock.feeds (src dst : PipelineBlock R) : Bool :=
  dst.reads.any fun read => src.writes.any fun write => write.buffer.data = read.buffer.data

/-- The two checks on a dependency. -/
def PipelineBlock.mayPrecede (src dst : PipelineBlock R) : Bool :=
  decide (src.stage ≤ dst.stage) && (src.stage ≠ dst.stage || decide (src.order < dst.order))

/-- `ValidatePipelineBody`, with the dependencies of `BuildDependencyGraph`. -/
def validatePipelineBody : List (PipelineBlock R) → Bool
  | [] => true
  | src :: rest =>
    (rest.all fun dst => src.order ≠ dst.order && (!src.feeds dst || src.mayPrecede dst)) &&
      validatePipelineBody rest

/-- What is found of an annotated loop: the loop, the condition around its body, the buffers
allocated in it and its statements. -/
structure PipelinedFor (R : Type) : Type where
  loop : PipelineLoop
  predicateCondition : Option Expr
  pipelineAllocs : List Buffer
  info : List (PipelineBlock R)

/-- The loop as it was. -/
def PipelinedFor.original (K : PipelinedFor R) : Stmt :=
  .forLoop K.loop.loopVar K.loop.min K.loop.extent
    (guardedBy K.predicateCondition (seqAll (K.info.map PipelineBlock.body)))

def PipelinedFor.rewriter (A : Analyzer) (mayConflict : R → R → Bool) (K : PipelinedFor R) :
    Rewriter where
  analyzer := A
  loop := K.loop
  predicateCondition := K.predicateCondition
  remap := bufferRemap mayConflict K.info K.pipelineAllocs
  maxStage := maxStage K.info

/-- `BuildPipeline`. -/
def PipelinedFor.build (A : Analyzer) (mayConflict : R → R → Bool) (newVars : Var × Var × Var)
    (K : PipelinedFor R) : Option Stmt :=
  if K.pipelineAllocs.all fun buffer => (getBufferAccessInfo K.info buffer).isSome then
    (orderedStmts K.info).map fun ordered => (K.rewriter A mayConflict).emitAll ordered newVars
  else none

/-- `VisitStmt_(const ForNode *)` of a loop with annotations. -/
def PipelinedFor.inject (A : Analyzer) (mayConflict : R → R → Bool) (newVars : Var × Var × Var)
    (K : PipelinedFor R) : Option Stmt :=
  if validatePipelineBody K.info then K.build A mayConflict newVars else none

end

end TileLangNpuir.Pipeline
