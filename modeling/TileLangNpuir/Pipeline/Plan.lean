import Mathlib.Data.List.Basic
import Mathlib.Data.Int.Order.Basic
import Mathlib.Logic.Function.Basic

/-!
# `PipelinePlanner`

How `VisitStmt_(const ForNode *)` of `src/transform/pipeline_planning.cc` gives every
statement of a loop body an order and a stage. The vector of `PipelineStageInfo` is
changed in place by three loops; here its `order` and `stage` are functions of the
position, and positions past the end do not matter.
-/

namespace TileLangNpuir.Pipeline

/-- A `BufferRegion`. -/
structure BufferRegion (B R : Type) : Type where
  buffer : B
  region : R

/-- What `MakePipelineStageInfo` collects of a statement. -/
structure StageInfo (B R : Type) : Type where
  reads : List (BufferRegion B R)
  writes : List (BufferRegion B R)
  /-- it copies from global to shared memory -/
  copyStage : Bool
  /-- the buffers that `conditonal_expr` loads, where it is defined -/
  conditonalExpr : Option (List B)

/-- The statements as the loops see them. -/
structure Body : Type where
  /-- how many statements there are -/
  size : ℕ
  copyStage : ℕ → Bool
  prepareForCondition : ℕ → Bool
  lastUseStage : ℕ → ℤ

section

variable {B R : Type} [DecidableEq B] (mayConflict : R → R → Bool)

/-- The same buffer, with regions that may conflict. -/
def overlaps (a b : BufferRegion B R) : Bool :=
  a.buffer = b.buffer && mayConflict a.region b.region

/-- The first statement writes a region that the second one may read. -/
def StageInfo.feeds (p q : StageInfo B R) : Bool :=
  q.reads.any fun read => p.writes.any fun write => overlaps mayConflict write read

/-- Both statements write to overlapping regions. -/
def StageInfo.clobbers (p q : StageInfo B R) : Bool :=
  q.writes.any fun write => p.writes.any fun write' => overlaps mayConflict write' write

variable (infos : List (StageInfo B R))

/-- The statement at a position. -/
def infoAt (i : ℕ) : StageInfo B R := infos[i]?.getD ⟨[], [], false, none⟩

/-- `prepare_for_condition`. -/
def prepareForCondition (i : ℕ) : Bool :=
  (infoAt infos i).writes.any fun write =>
    infos.any fun other => other.conditonalExpr.any fun loads => decide (write.buffer ∈ loads)

/-- `last_use_stage`, from the use-def chain. -/
def lastUseStage (i : ℕ) : ℤ :=
  (List.range infos.length).foldl
    (fun last j =>
      if (infoAt infos i).copyStage && decide (i < j) &&
          (infoAt infos i).feeds mayConflict (infoAt infos j) then max last j
      else last) (-1)

/-- The fatal error: a later statement writes over what a copy writes. -/
def multipleWrites : Bool :=
  (List.range infos.length).any fun i => (List.range infos.length).any fun j =>
    (infoAt infos i).copyStage && decide (i < j) &&
      (infoAt infos i).clobbers mayConflict (infoAt infos j)

/-- What the loops look at. -/
def bodyOf : Body where
  size := infos.length
  copyStage := fun i => (infoAt infos i).copyStage
  prepareForCondition := prepareForCondition infos
  lastUseStage := lastUseStage mayConflict infos

end

/-- The orders and stages assigned so far, and `order_idx`. -/
structure Slots : Type where
  order : ℕ → ℤ
  stage : ℕ → ℤ
  orderIdx : ℤ

/-- `pinfo.order = order_idx++; pinfo.stage = stage`. -/
def Slots.assign (s : Slots) (p : ℕ) (stage : ℤ) : Slots where
  order := Function.update s.order p s.orderIdx
  stage := Function.update s.stage p stage
  orderIdx := s.orderIdx + 1

namespace Body

variable (K : Body) (numStages : ℤ)

/-- The statements that the main loop leaves for the first stage. -/
def isFirstStage (p : ℕ) : Bool :=
  (K.copyStage p && K.lastUseStage p ≠ -1) || K.prepareForCondition p

/-- `order` and `stage` start at `-1`. -/
def unassigned : Slots := ⟨fun _ => -1, fun _ => -1, 0⟩

/-- One round of the main loop: a statement of the last stage, and the copies it is
the last to use. -/
def placeMain (s : Slots) (m : ℕ) : Slots :=
  if K.isFirstStage m then s
  else (List.range K.size).foldl
    (fun s p => if K.copyStage p && K.lastUseStage p = m then s.assign p 0 else s)
    (s.assign m numStages)

/-- "Making stages and orders". -/
def makeStages : Slots := (List.range K.size).foldl (K.placeMain numStages) unassigned

/-- One round of the loop over the statements without an order;
`elem` is `unassigned_order_elem`. -/
def placeRest (t : Slots × ℤ) (p : ℕ) : Slots × ℤ :=
  let (s, elem) := t
  if s.order p = elem then
    let order := Function.update s.order p elem
    -- from `begin() + unassigned_order_elem`, which is one larger by now
    (⟨fun q => if elem + 1 ≤ q ∧ q < K.size then order q + 1 else order q,
      Function.update s.stage p 0, s.orderIdx + 1⟩, elem + 1)
  else (s, elem)

/-- "Handle trailing unassigned copy stages". -/
def handleRest (s : Slots) : Slots := ((List.range K.size).foldl K.placeRest (s, -1)).1

/-- The statements counted as copies at the end. -/
def isCopy (p : ℕ) : Bool := K.copyStage p || K.prepareForCondition p

/-- `copy_stage_at_end`. -/
def copyStageAtEnd (s : Slots) : ℤ :=
  let copies := (List.range K.size).filter fun p => K.isCopy p
  let others := (List.range K.size).filter fun p => !K.isCopy p
  let copyOrderMin := copies.foldl (fun n p => min n (s.order p)) K.size
  let nonCopyOrderMax := others.foldl (fun n p => max n (s.order p)) 0
  if nonCopyOrderMax < copyOrderMin then copies.length else -1

/-- Copies at the end of the order move to its beginning. -/
def moveCopies (s : Slots) : Slots :=
  let count := K.copyStageAtEnd s
  if 0 < count ∧ 2 ≤ numStages then
    { s with
      order := fun p => (s.order p + count) % K.size
      stage := fun p => if K.isCopy p then s.stage p else s.stage p - 1 }
  else s

/-- The orders and stages of the statements; `none` where an assertion fails. -/
def schedule : Option Slots :=
  if K.size = 0 then none
  else
    let s := K.handleRest (K.makeStages numStages)
    if s.orderIdx = K.size then some (K.moveCopies numStages s) else none

end Body

/-- The planning of a loop body. -/
def plan {B R : Type} [DecidableEq B] (mayConflict : R → R → Bool) (numStages : ℤ)
    (infos : List (StageInfo B R)) : Option Slots :=
  if numStages < 1 then none
  else if multipleWrites mayConflict infos then none
  else (bodyOf mayConflict infos).schedule numStages

end TileLangNpuir.Pipeline
