import Mathlib.Data.Int.Notation
import TileLangNpuir.Lib.Strided

/-!
# Planning a generic copy

The generic path of `AscendCopyCodegen` in `src/target/codegen_npuir_api.cc`: the facts about
the two slices, the shape that both are brought to, the layouts of the two views, and the
`memref.copy` between them. Every size, stride and offset is a number or a run-time value.
-/

namespace TileLangNpuir.CopyPlan

open TileLangNpuir.RowMajor

/-! ## Scalars -/

/-- Scalar expressions. One that is neither an `IntImm` nor a product is given by what it is at
run time. -/
inductive PrimExpr (Env : Type) : Type where
  | imm (n : ℤ)
  | mul (a b : PrimExpr Env)
  | run (f : Env → ℤ)

variable {Env : Type}

def PrimExpr.eval (env : Env) : PrimExpr Env → ℤ
  | .imm n => n
  | .mul a b => a.eval env * b.eval env
  | .run f => f env

/-- `as_const_int`. -/
def asConstInt : PrimExpr Env → Option ℤ
  | .imm n => some n
  | _ => none

/-- Values of index type. -/
inductive IndexValue (Env : Type) : Type where
  | constantIndex (n : ℤ)
  | makeValue (e : PrimExpr Env)
  | mulI (a b : IndexValue Env)
  | addI (a b : IndexValue Env)

def IndexValue.eval (env : Env) : IndexValue Env → ℤ
  | .constantIndex n => n
  | .makeValue e => e.eval env
  | .mulI a b => a.eval env * b.eval env
  | .addI a b => a.eval env + b.eval env

/-- `OpFoldResult`. -/
inductive OpFoldResult (Env : Type) : Type where
  | attr (n : ℤ)
  | value (v : IndexValue Env)

def OpFoldResult.eval (env : Env) : OpFoldResult Env → ℤ
  | .attr n => n
  | .value v => v.eval env

/-- `ExtractStaticShapeDim`; `none` is `kDynamic`. -/
def extractStaticShapeDim : OpFoldResult Env → Option ℤ
  | .attr n => some n
  | .value _ => none

/-- `MaterializeIndexFoldResult`. -/
def materializeIndexFoldResult : OpFoldResult Env → IndexValue Env
  | .attr n => .constantIndex n
  | .value v => v

/-- A number if it is one, and a value otherwise. -/
def foldExpr (e : PrimExpr Env) : OpFoldResult Env :=
  match asConstInt e with
  | some n => .attr n
  | none => .value (.makeValue e)

/-! ## Memrefs -/

/-- A strided layout. -/
structure StridedLayout : Type where
  offset : Option ℤ
  strides : List (Option ℤ)
  deriving DecidableEq

/-- `MemRefType`; a layout that is not strided is `none`. -/
structure MemRefType : Type where
  shape : List (Option ℤ)
  elementType : ℕ
  layout : Option StridedLayout
  memorySpace : ℕ
  deriving DecidableEq

/-- A memref: its type, the buffer it lies in, and where. -/
structure MemRef (Env : Type) : Type where
  type : MemRefType
  buffer : ℕ
  offset : OpFoldResult Env
  sizes : List (OpFoldResult Env)
  strides : List (OpFoldResult Env)

/-- The elements of a memref in row-major order. -/
def MemRef.cells (env : Env) (r : MemRef Env) : List (ℕ × ℤ) :=
  (addresses (List.zip (r.sizes.map (OpFoldResult.eval env)) (r.strides.map (OpFoldResult.eval env)))).map
    fun a => (r.buffer, r.offset.eval env + a)

/-- Sums of numbers that may be unknown. -/
def addStatic : Option ℤ → Option ℤ → Option ℤ
  | some x, some y => some (x + y)
  | _, _ => none

/-- Products of numbers that may be unknown; nothing is unknown about a multiple of zero. -/
def mulStatic : Option ℤ → Option ℤ → Option ℤ
  | some 0, _ => some 0
  | _, some 0 => some 0
  | some x, some y => some (x * y)
  | _, _ => none

/-- The type of a `memref.subview` with unit strides. -/
def subviewType (t : MemRefType) (offsets sizes : List (OpFoldResult Env)) : MemRefType where
  shape := sizes.map extractStaticShapeDim
  elementType := t.elementType
  layout := t.layout.map fun l =>
    ⟨(List.zipWith mulStatic (offsets.map extractStaticShapeDim) l.strides).foldl addStatic l.offset,
      l.strides⟩
  memorySpace := t.memorySpace

/-- `memref.subview` with unit strides. -/
def subview (r : MemRef Env) (offsets sizes : List (OpFoldResult Env)) : MemRef Env where
  type := subviewType r.type offsets sizes
  buffer := r.buffer
  offset := .value ((List.zipWith
    (fun o s => IndexValue.mulI (materializeIndexFoldResult o) (materializeIndexFoldResult s))
    offsets r.strides).foldl .addI (materializeIndexFoldResult r.offset))
  sizes := sizes
  strides := r.strides

/-- `memref.reinterpret_cast`; the offset counts from the base of the buffer. -/
def reinterpretCast (t : MemRefType) (r : MemRef Env) (offset : OpFoldResult Env)
    (sizes strides : List (OpFoldResult Env)) : MemRef Env :=
  ⟨t, r.buffer, offset, sizes, strides⟩

/-- `memref.copy`. -/
def memrefCopy {V : Type} (env : Env) (src dst : MemRef Env) (m : ℕ × ℤ → V) : ℕ × ℤ → V :=
  copyList m (List.zip (src.cells env) (dst.cells env)) m

/-! ## Slices -/

/-- `Buffer`. -/
structure Buffer (Env : Type) : Type where
  data : ℕ
  dtype : ℕ
  shape : List (PrimExpr Env)
  strides : List (PrimExpr Env)

/-- `Range`. -/
structure Range (Env : Type) : Type where
  min : PrimExpr Env
  extent : PrimExpr Env

/-- The checks that end in a fatal error. -/
inductive CopyError : Type where
  | cannotFindVariable
  | notStrided
  | dynamicBaseOffset
  | explicitStrides
  | rangeRank
  | layoutRank
  | elementTypeCast
  | backboneCount
  | backboneDimension
  | noTargetShape
  | keptDimMismatch
  | projectedRank
  | keptIndexOutOfRange
  | elementTypeMismatch
  | logicalShapeMismatch
  deriving DecidableEq

/-- An `ICHECK`. -/
def icheck (p : Prop) [Decidable p] (e : CopyError) : Except CopyError Unit :=
  if p then .ok () else .error e

/-- What the code generator brings: the analyzer, and `var_map_`. -/
structure Context (Env : Type) : Type where
  simplify : PrimExpr Env → PrimExpr Env
  varMap : ℕ → Option (MemRef Env)

section

variable (ctx : Context Env)

/-- The loop of `BuildContiguousStrideExprs`: the strides, and the running product. -/
def contiguousStrides : List (PrimExpr Env) → List (PrimExpr Env) × PrimExpr Env
  | [] => ([], .imm 1)
  | n :: ns =>
    let (strides, running) := contiguousStrides ns
    (ctx.simplify running :: strides, ctx.simplify (.mul n running))

/-- `BuildContiguousStrideExprs`. -/
def buildContiguousStrideExprs (shape : List (PrimExpr Env)) : List (PrimExpr Env) :=
  (contiguousStrides ctx shape).1

/-- `ExtractStaticInts`. -/
def extractStaticInts (es : List (PrimExpr Env)) : List (Option ℤ) :=
  es.map fun e => asConstInt (ctx.simplify e)

/-- `BuildIndexFoldResultsFromExprs`. -/
def buildIndexFoldResultsFromExprs (es : List (PrimExpr Env)) : List (OpFoldResult Env) :=
  es.map fun e => foldExpr (ctx.simplify e)

/-- The strides of a buffer. -/
def strideExprs (buffer : Buffer Env) : List (PrimExpr Env) :=
  if buffer.strides = [] then buildContiguousStrideExprs ctx buffer.shape else buffer.strides

/-- `GetMLIRType` of a buffer. -/
def getMLIRType (buffer : Buffer Env) (memorySpace : ℕ) : MemRefType where
  shape := extractStaticInts ctx buffer.shape
  elementType := buffer.dtype
  layout := some ⟨some 0, extractStaticInts ctx (strideExprs ctx buffer)⟩
  memorySpace := memorySpace

/-- The memref that a function argument is cast to at the start of the function. -/
def recastParam (buffer : Buffer Env) (memorySpace : ℕ) (arg : MemRef Env) : MemRef Env :=
  reinterpretCast (getMLIRType ctx buffer memorySpace) arg (.attr 0)
    (buildIndexFoldResultsFromExprs ctx buffer.shape)
    (buildIndexFoldResultsFromExprs ctx (strideExprs ctx buffer))

/-- `SliceFacts`. -/
structure SliceFacts (Env : Type) : Type where
  baseMemref : MemRef Env
  baseLayoutOffset : ℤ
  baseLayoutStrides : List (Option ℤ)
  baseLayoutStrideValues : List (OpFoldResult Env)
  sliceOffsets : List (OpFoldResult Env)
  sliceSizes : List (OpFoldResult Env)
  coversWholeBuffer : Bool

/-- `IsEqual`: the same numbers. -/
def isEqual : List (PrimExpr Env) → List (PrimExpr Env) → Bool
  | [], [] => true
  | a :: as, b :: bs =>
    (match asConstInt a, asConstInt b with
      | some x, some y => x = y
      | _, _ => false) && isEqual as bs
  | _, _ => false

/-- `AllZero`. -/
def allZero (es : List (PrimExpr Env)) : Bool := es.all fun e => asConstInt e = some 0

/-- The facts that `BuildSliceFacts` fills in. -/
def sliceFacts (buffer : Buffer Env) (range : List (Range Env)) (base : MemRef Env) (offset : ℤ) :
    SliceFacts Env :=
  let strideExprs := buildContiguousStrideExprs ctx buffer.shape
  { baseMemref := base
    baseLayoutOffset := offset
    baseLayoutStrides := extractStaticInts ctx strideExprs
    baseLayoutStrideValues := buildIndexFoldResultsFromExprs ctx strideExprs
    sliceOffsets := range.map fun r => foldExpr r.min
    sliceSizes := range.map fun r => foldExpr r.extent
    coversWholeBuffer :=
      isEqual buffer.shape (range.map Range.extent) && allZero (range.map Range.min) }

/-- `BuildSliceFacts`. -/
def buildSliceFacts (buffer : Buffer Env) (range : List (Range Env)) :
    Except CopyError (SliceFacts Env) := do
  let some base := ctx.varMap buffer.data | throw .cannotFindVariable
  let some layout := base.type.layout | throw .notStrided
  let some offset := layout.offset | throw .dynamicBaseOffset
  icheck (buffer.strides = []) .explicitStrides
  let facts := sliceFacts ctx buffer range base offset
  icheck (facts.sliceOffsets.length = base.type.shape.length) .rangeRank
  icheck (facts.baseLayoutStrides.length = facts.sliceOffsets.length) .layoutRank
  return facts

end

/-! ## Shapes -/

/-- A dimension that is not statically one, with the ones before it. -/
structure Slot : Type where
  gap : List ℕ
  idx : ℕ
  dim : Option ℤ

/-- `ShapeExtract`: the backbone with the gaps before its dimensions, and the gap at the end. -/
structure ShapeExtract : Type where
  slots : List Slot
  trailing : List ℕ

/-- `extract`, over the dimensions from one on. -/
def extract (dim : ℕ → Option ℤ) : List ℕ → ShapeExtract
  | [] => ⟨[], []⟩
  | i :: is =>
    let info := extract dim is
    if dim i = some 1 then
      match info.slots with
      | [] => ⟨[], i :: info.trailing⟩
      | s :: ss => ⟨{ s with gap := i :: s.gap } :: ss, info.trailing⟩
    else ⟨⟨[], i, dim i⟩ :: info.slots, info.trailing⟩

/-- `CopyShapePlan`. -/
structure CopyShapePlan : Type where
  alignedShape : List (Option ℤ)
  srcKeptDims : List ℕ
  dstKeptDims : List ℕ

/-- The last `n` of a list. -/
def lastN (n : ℕ) (is : List ℕ) : List ℕ := is.drop (is.length - n)

/-- The loop over the backbone. Ones are kept as far as both sides have them, from the ones next
to the dimension. -/
def planSlots : List Slot → List Slot → Except CopyError CopyShapePlan
  | s :: ss, d :: ds => do
    icheck (s.dim = none ∨ d.dim = none ∨ s.dim = d.dim) .backboneDimension
    let targetGap := min s.gap.length d.gap.length
    let rest ← planSlots ss ds
    return {
      alignedShape := List.replicate targetGap (some 1) ++
        (if s.dim = none ∨ d.dim = none then none else s.dim) :: rest.alignedShape
      srcKeptDims := lastN targetGap s.gap ++ s.idx :: rest.srcKeptDims
      dstKeptDims := lastN targetGap d.gap ++ d.idx :: rest.dstKeptDims }
  | _, _ => return ⟨[], [], []⟩

/-- The gap at the end: the ones next to the backbone. -/
def planTrailing (plan : CopyShapePlan) (src dst : List ℕ) : CopyShapePlan :=
  let trailingGap := min src.length dst.length
  { alignedShape := plan.alignedShape ++ List.replicate trailingGap (some 1)
    srcKeptDims := plan.srcKeptDims ++ src.take trailingGap
    dstKeptDims := plan.dstKeptDims ++ dst.take trailingGap }

/-- The first gap. -/
def ShapeExtract.frontGap (info : ShapeExtract) : List ℕ :=
  match info.slots with
  | [] => info.trailing
  | s :: _ => s.gap

/-- A copy of one element needs one dimension. -/
def planScalar (plan : CopyShapePlan) (src dst : ShapeExtract) : Except CopyError CopyShapePlan :=
  if plan.alignedShape = [] then
    match src.frontGap, dst.frontGap with
    | i :: _, j :: _ => return ⟨[some 1], plan.srcKeptDims ++ [i], plan.dstKeptDims ++ [j]⟩
    | _, _ => throw .noTargetShape
  else return plan

/-- The sizes of a slice, in the order of its dimensions. -/
def extractSizes (sizes : List (OpFoldResult Env)) : ShapeExtract :=
  extract (fun i => sizes[i]?.bind extractStaticShapeDim) (List.range sizes.length)

/-- `BuildCopyShapePlan`. -/
def buildCopyShapePlan (src dst : SliceFacts Env) : Except CopyError CopyShapePlan := do
  let srcInfo := extractSizes src.sliceSizes
  let dstInfo := extractSizes dst.sliceSizes
  icheck (srcInfo.slots.length = dstInfo.slots.length) .backboneCount
  let plan ← planSlots srcInfo.slots dstInfo.slots
  let plan ← planScalar (planTrailing plan srcInfo.trailing dstInfo.trailing) srcInfo dstInfo
  icheck (plan.alignedShape.length = plan.srcKeptDims.length ∧
    plan.alignedShape.length = plan.dstKeptDims.length) .keptDimMismatch
  return plan

/-! ## Views -/

/-- The loop of `ComputeProjectedViewOffset`: the number so far, and the value so far. -/
def projectedViewOffset : List (OpFoldResult Env) → List (OpFoldResult Env) →
    ℤ → Option (IndexValue Env) → ℤ × Option (IndexValue Env)
  | off :: offs, stride :: strides, static, dynamic =>
    match off, stride with
    | .attr o, .attr s => projectedViewOffset offs strides (static + o * s) dynamic
    | off, stride =>
      if extractStaticShapeDim off = some 0 then projectedViewOffset offs strides static dynamic
      else
        let term := materializeIndexFoldResult off
        let term := if extractStaticShapeDim stride = some 1 then term
          else .mulI term (materializeIndexFoldResult stride)
        projectedViewOffset offs strides static
          (some (match dynamic with
            | some v => .addI v term
            | none => term))
  | _, _, static, dynamic => (static, dynamic)

/-- `ComputeProjectedViewOffset`. -/
def computeProjectedViewOffset (baseLayoutOffset : ℤ) (sliceOffsets strides : List (OpFoldResult Env)) :
    OpFoldResult Env :=
  match projectedViewOffset sliceOffsets strides baseLayoutOffset none with
  | (static, none) => .attr static
  | (static, some v) => if static = 0 then .value v else .value (.addI (.constantIndex static) v)

/-- `ProjectedLayoutPlan`. -/
structure ProjectedLayoutPlan (Env : Type) : Type where
  viewStrideStatics : List (Option ℤ)
  viewStrideValues : List (OpFoldResult Env)
  viewSizes : List (OpFoldResult Env)
  viewOffset : OpFoldResult Env

/-- The stride and the size of a kept dimension. -/
def projectDim (facts : SliceFacts Env) (idx : ℕ) :
    Except CopyError (Option ℤ × OpFoldResult Env × OpFoldResult Env) :=
  match facts.baseLayoutStrides[idx]?, facts.baseLayoutStrideValues[idx]?, facts.sliceSizes[idx]? with
  | some s, some v, some n => .ok (s, v, n)
  | _, _, _ => .error .keptIndexOutOfRange

/-- `BuildProjectedLayoutPlan`. All offsets count, also those of dropped dimensions. -/
def buildProjectedLayoutPlan (facts : SliceFacts Env) (keptDims : List ℕ)
    (alignedShape : List (Option ℤ)) : Except CopyError (ProjectedLayoutPlan Env) := do
  icheck (keptDims.length = alignedShape.length) .projectedRank
  let dims ← keptDims.mapM (projectDim facts)
  return {
    viewStrideStatics := dims.map fun d => d.1
    viewStrideValues := dims.map fun d => d.2.1
    viewSizes := dims.map fun d => d.2.2
    viewOffset := computeProjectedViewOffset facts.baseLayoutOffset facts.sliceOffsets
      facts.baseLayoutStrideValues }

/-- `BuildFullRankSubview`. -/
def buildFullRankSubview (facts : SliceFacts Env) : MemRef Env :=
  if facts.coversWholeBuffer then facts.baseMemref
  else subview facts.baseMemref facts.sliceOffsets facts.sliceSizes

/-- `BuildAlignedCopyView`. -/
def buildAlignedCopyView (fullSubview : MemRef Env) (elemTy memSpace : ℕ)
    (alignedShape : List (Option ℤ)) (layout : ProjectedLayoutPlan Env) : MemRef Env :=
  let targetTy : MemRefType :=
    ⟨alignedShape, elemTy, some ⟨extractStaticShapeDim layout.viewOffset, layout.viewStrideStatics⟩,
      memSpace⟩
  if fullSubview.type = targetTy then fullSubview
  else reinterpretCast targetTy fullSubview layout.viewOffset layout.viewSizes layout.viewStrideValues

/-- The view of one side. -/
def alignedView (facts : SliceFacts Env) (layout : ProjectedLayoutPlan Env)
    (alignedShape : List (Option ℤ)) : MemRef Env :=
  buildAlignedCopyView (buildFullRankSubview facts) facts.baseMemref.type.elementType
    facts.baseMemref.type.memorySpace alignedShape layout

/-- The generic path of `AscendCopyCodegen`: the operands of the `memref.copy`. -/
def ascendCopyCodegen (ctx : Context Env) (src dst : Buffer Env) (srcRange dstRange : List (Range Env)) :
    Except CopyError (MemRef Env × MemRef Env) := do
  icheck (src.dtype = dst.dtype) .elementTypeCast
  let srcFacts ← buildSliceFacts ctx src srcRange
  let dstFacts ← buildSliceFacts ctx dst dstRange
  let shapePlan ← buildCopyShapePlan srcFacts dstFacts
  let srcLayout ← buildProjectedLayoutPlan srcFacts shapePlan.srcKeptDims shapePlan.alignedShape
  let dstLayout ← buildProjectedLayoutPlan dstFacts shapePlan.dstKeptDims shapePlan.alignedShape
  let srcView := alignedView srcFacts srcLayout shapePlan.alignedShape
  let dstView := alignedView dstFacts dstLayout shapePlan.alignedShape
  icheck (srcView.type.elementType = dstView.type.elementType) .elementTypeMismatch
  icheck (srcView.type.shape = dstView.type.shape) .logicalShapeMismatch
  return (srcView, dstView)

end TileLangNpuir.CopyPlan
