import TileLangNpuir.Lib.CommitQueue
import TileLangNpuir.Pipeline.Rounds

/-!
# Async stages

`src/transform/inject_pipeline.cc`: the blocks of an async stage run in the background. Their
writes are committed in groups, and a block that reads what an async stage writes waits until
only so many groups are in flight (`PopulateWaitCounts`). In every execution what it reads has
then been written.
-/

namespace TileLangNpuir.Pipeline

open Tir CommitQueue

variable {R : Type}

/-! ## The states of the stages -/

section

variable (remap : Buffer → Option Buffer) (ordered : List (PipelineBlock R)) (stage : ℤ)

/-- `RewritePipelineBufferRegion`: the buffer of the new region. -/
def newBuffer (buffer : Buffer) : Buffer := (remap buffer).getD buffer

/-- The block runs in the background, in this stage. -/
def PipelineBlock.asyncIn (b : PipelineBlock R) : Bool := b.async && b.stage = stage

/-- `dst_buffers`. -/
def dstBuffers : List Buffer :=
  (ordered.filter fun b => b.asyncIn stage).flatMap fun b =>
    b.writes.flatMap fun w => w.buffer :: (remap w.buffer).toList

/-- `commit_groups`, `buffer_to_commit_group_` with the newest entries first, and whether the stage
is in `consumed`. -/
structure CommitState : Type where
  groups : List (List ℤ)
  bufferToGroup : List (Buffer × ℕ)
  consumed : Bool

/-- `commit_groups.back().push_back(order)`. -/
def pushBack (order : ℤ) : List (List ℤ) → List (List ℤ)
  | [] => []
  | [group] => [group ++ [order]]
  | group :: groups => group :: pushBack order groups

/-- The block reads what the stage writes in the background. -/
def PipelineBlock.consumes (b : PipelineBlock R) : Bool :=
  decide (stage ≤ b.stage) && b.reads.any fun r => r.buffer ∈ dstBuffers remap ordered stage

/-- One block of the second loop of `BuildPipeline`. -/
def commitStep (st : CommitState) (b : PipelineBlock R) : CommitState :=
  let st :=
    if b.asyncIn stage then
      let groups := if st.groups = [] ∨ st.consumed then st.groups ++ [[]] else st.groups
      let groups := pushBack b.order groups
      ⟨groups, (b.writes.map fun w => (newBuffer remap w.buffer, groups.length - 1)).reverse ++
        st.bufferToGroup, false⟩
    else st
  if b.consumes remap ordered stage then { st with consumed := true } else st

def commitState : CommitState :=
  ordered.foldl (commitStep remap ordered stage) ⟨[], [], false⟩

/-- The stages with a state. -/
def asyncStages : List ℤ := (ordered.filter PipelineBlock.async).map PipelineBlock.stage

/-- `producer_stage_idx`: the stage that a block depends on; several are an error. -/
def producerStage (b : PipelineBlock R) : Option (Option ℤ) :=
  let stages := b.reads.flatMap fun r => (asyncStages ordered).filter fun stage =>
    decide (stage ≤ b.stage) && decide (newBuffer remap r.buffer ∈ dstBuffers remap ordered stage)
  match stages with
  | [] => some none
  | stage :: rest => if rest.all (· = stage) then some (some stage) else none

/-- How many groups before `i` in a row have no read of the block, from the last one on. -/
def relax (dependentGroups : List ℕ) : ℕ → ℕ
  | 0 => 0
  | i + 1 => if i ∈ dependentGroups then 0 else relax dependentGroups i + 1

/-- `dependent_groups`. -/
def dependentGroups (b : PipelineBlock R) : List ℕ :=
  b.reads.filterMap fun r =>
    (commitState remap ordered stage).bufferToGroup.lookup (newBuffer remap r.buffer)

end

/-! ## The emitted loops -/

namespace Rewriter

variable (P : Rewriter) (ordered : List (PipelineBlock R))

/-- The blocks of an emitted loop. -/
def newBlocks (start stop : Expr) (newVar : Var) (needBoundCheck : Bool) :
    List (PipelineBlock R × RewrittenBlock) :=
  ordered.filterMap fun b => (P.rewriteBlock start stop newVar needBoundCheck b).map fun rb => (b, rb)

/-- `async_states_local[stage].producer_head`. -/
def localHead (blocks : List (PipelineBlock R × RewrittenBlock)) (stage : ℤ) : Option Expr :=
  ((blocks.filter fun b => b.2.isAsync && b.2.stage = stage).getLast?).map fun b => b.2.accessIndex

/-- `in_flight_cnt`, for a block that depends on the stage. -/
def waitCount (blocks : List (PipelineBlock R × RewrittenBlock)) (globalHead : Expr) (stage : ℤ)
    (b : PipelineBlock R × RewrittenBlock) : Expr :=
  let st := commitState P.remap ordered stage
  let head (group : List ℤ) : Expr :=
    match localHead blocks stage with
    | none => globalHead
    | some head => if b.2.order < group.headD 0 then head.sub (.int 1) else head
  let inFlight : Expr := st.groups.foldl
    (fun (cnt : Expr) group => cnt.add ((head group).sub b.2.accessIndex)) (.int 0)
  inFlight.add (.int (relax (dependentGroups P.remap ordered stage b.1) st.groups.length))

end Rewriter

/-- What a thread does: it waits for a stage, runs an instance, and commits to a stage. -/
inductive AsyncEvent (R : Type) : Type where
  | wait (stage count : ℤ)
  | run (j : ℤ × PipelineBlock R)
  | commit (stage : ℤ)

/-- What an event does to the queue of a stage. An instance is known by its iteration and its
order. -/
def AsyncEvent.op (stage : ℤ) : AsyncEvent R → Option (Op (ℤ × ℤ))
  | .wait stage' count => if stage' = stage then some (.wait count.toNat) else none
  | .run j => if j.2.asyncIn stage then some (.issue (j.1, j.2.order)) else none
  | .commit stage' => if stage' = stage then some .commit else none

namespace Rewriter

variable (P : Rewriter) (ordered : List (PipelineBlock R))

/-- The wait before a block. -/
def waitEvents (blocks : List (PipelineBlock R × RewrittenBlock)) (globalHead : ℤ → Expr)
    (env : Env) (m : Mem) (b : PipelineBlock R × RewrittenBlock) : List (AsyncEvent R) :=
  match producerStage P.remap ordered b.1 with
  | some (some stage) =>
    [.wait stage ((P.waitCount ordered blocks (globalHead stage) stage b).eval env m)]
  | _ => []

/-- The commit after a block: it is the last one of a group. -/
def commitEvents (b : PipelineBlock R × RewrittenBlock) : List (AsyncEvent R) :=
  if (asyncStages ordered).any fun stage =>
      (commitState P.remap ordered stage).groups.any fun group => group.getLast? = some b.2.order
  then [.commit b.2.stage]
  else []

/-- What a block of an emitted loop does, under its predicate. -/
def blockEvents (blocks : List (PipelineBlock R × RewrittenBlock)) (globalHead : ℤ → Expr)
    (env : Env) (m : Mem) (b : PipelineBlock R × RewrittenBlock) : List (AsyncEvent R) :=
  if b.2.predicate.eval env m = 0 then []
  else
    P.waitEvents ordered blocks globalHead env m b ++
      .run (b.2.accessIndex.eval env m, b.1) :: P.commitEvents ordered b

/-- The environments of the rounds of an emitted loop. -/
def roundEnvs (start stop : Expr) (newVar : Var) (env : Env) (m : Mem) : List Env :=
  if P.analyzer.provesOne (stop.sub start) then [env]
  else
    (span (P.loop.min.eval env m) ((stop.sub start).eval env m).toNat).map (env.set newVar)

def emitEvents (start stop : Expr) (newVar : Var)
    (blocks : List (PipelineBlock R × RewrittenBlock)) (globalHead : ℤ → Expr) (env : Env)
    (m : Mem) : List (AsyncEvent R) :=
  (P.roundEnvs start stop newVar env m).flatMap fun env =>
    blocks.flatMap (P.blockEvents ordered blocks globalHead env m)

/-- `async_states[stage_id].producer_head += extent`, for the stages with a local state. -/
def advance (blocks : List (PipelineBlock R × RewrittenBlock)) (extent : Expr)
    (globalHead : ℤ → Expr) (stage : ℤ) : Expr :=
  if blocks.any fun b => (b.2.isAsync && b.2.stage = stage) ||
      producerStage P.remap ordered b.1 = some (some stage) then
    (globalHead stage).add extent
  else globalHead stage

/-- The prologue, the body and the epilogue; nothing where a block depends on several stages. -/
def allEvents (newVars : Var × Var × Var) (env : Env) (m : Mem) : Option (List (AsyncEvent R)) :=
  let filled := P.loop.min.add (.int P.maxStage)
  let drained := P.stop.add (.int P.maxStage)
  let prologue := P.newBlocks ordered P.loop.min filled newVars.1 true
  let body := P.newBlocks ordered filled P.stop newVars.2.1 false
  let epilogue := P.newBlocks ordered P.stop drained newVars.2.2 true
  let head₀ : ℤ → Expr := fun _ => P.loop.min.sub (.int 1)
  let head₁ := P.advance ordered prologue (filled.sub P.loop.min) head₀
  let head₂ := P.advance ordered body (P.stop.sub filled) head₁
  if (prologue ++ body ++ epilogue).all fun b => (producerStage P.remap ordered b.1).isSome then
    some (P.emitEvents ordered P.loop.min filled newVars.1 prologue head₀ env m ++
      (P.emitEvents ordered filled P.stop newVars.2.1 body head₁ env m ++
        P.emitEvents ordered P.stop drained newVars.2.2 epilogue head₂ env m))
  else none

end Rewriter

end TileLangNpuir.Pipeline
