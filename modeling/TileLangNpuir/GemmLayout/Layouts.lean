import Mathlib.Data.List.Forall2

/-!
# Shared-memory layouts of a GEMM

`src/layout/gemm_layouts.cc`: a layout sends the row and the column of an element of an
operand to an index of shared memory, written with the operators of `PrimExpr`. The
shape of the memory is what `LayoutNode::OutputShape` reads off an interval analysis.
-/

namespace TileLangNpuir.GemmLayout

/-- An index expression over `InputPlaceholder(0)` and `InputPlaceholder(1)`. -/
inductive Expr : Type where
  | row
  | col
  | const (n : ℕ)
  | add (a b : Expr)
  | mul (a : Expr) (k : ℕ)
  | floorDiv (a : Expr) (k : ℕ)
  | floorMod (a : Expr) (k : ℕ)
  | xor (a b : Expr)

namespace Expr

def eval (i j : ℕ) : Expr → ℕ
  | .row => i
  | .col => j
  | .const n => n
  | .add a b => a.eval i j + b.eval i j
  | .mul a k => a.eval i j * k
  | .floorDiv a k => a.eval i j / k
  | .floorMod a k => a.eval i j % k
  | .xor a b => a.eval i j ^^^ b.eval i j

/-- An exclusive or makes the interval of an expression everything, unless a remainder
bounds it again. -/
def unbounded : Expr → Bool
  | .row => false
  | .col => false
  | .const _ => false
  | .add a b => a.unbounded || b.unbounded
  | .mul a _ => a.unbounded
  | .floorDiv a _ => a.unbounded
  | .floorMod a k => k = 0 && a.unbounded
  | .xor _ _ => true

end Expr

/-- A `Layout` of two dimensions. -/
structure Layout : Type where
  stride : ℕ
  continuous : ℕ
  forwardIndex : List Expr

/-- `arith::Analyzer::int_set`, of an expression over rows and columns of the given numbers:
the upper end of the interval, or `none` when it is everything. -/
structure Analyzer : Type where
  intSetMax : ℕ → ℕ → Expr → Option ℕ
  sound : ∀ {stride continuous e max}, intSetMax stride continuous e = some max →
    ∀ i < stride, ∀ j < continuous, e.eval i j ≤ max
  everything_iff : ∀ stride continuous e, intSetMax stride continuous e = none ↔ e.unbounded = true

namespace Layout

/-- `input_size_`. -/
def inputSize (L : Layout) : List ℕ := [L.stride, L.continuous]

/-- `LayoutNode::Forward`. -/
def forward (L : Layout) (i j : ℕ) : List ℕ := L.forwardIndex.map (Expr.eval i j)

/-- The dimension of the `d`-th index. -/
def outputDim (S : Analyzer) (L : Layout) (e : Expr) (d : ℕ) : ℕ :=
  match S.intSetMax L.stride L.continuous (.add e (.const 1)) with
  | none => L.inputSize.getD d 0
  | some max => max

/-- `LayoutNode::OutputShape`. -/
def outputShape (S : Analyzer) (L : Layout) : List ℕ :=
  L.forwardIndex.zipIdx.map fun p => L.outputDim S p.1 p.2

/-- Distinct elements have distinct indices. -/
def Distinct (L : Layout) : Prop :=
  ∀ i < L.stride, ∀ j < L.continuous, ∀ i' < L.stride, ∀ j' < L.continuous,
    L.forward i j = L.forward i' j' → i = i' ∧ j = j'

/-- Every index is within the output shape. -/
def Within (S : Analyzer) (L : Layout) : Prop :=
  ∀ i < L.stride, ∀ j < L.continuous, List.Forall₂ (· < ·) (L.forward i j) (L.outputShape S)

end Layout

/-! ## Swizzles -/

/-- `xor2x2`. -/
def xor2x2 (i j : Expr) : Expr := .floorMod (.add i j) 2

/-- `xor4x4`. -/
def xor4x4 (i j : Expr) : Expr :=
  .add (.mul (xor2x2 (.floorDiv i 2) (.floorDiv j 2)) 2) (xor2x2 (.floorMod i 2) (.floorMod j 2))

/-- `xor8x8`. -/
def xor8x8 (i j : Expr) : Expr :=
  .add (.mul (xor4x4 (.floorDiv i 2) (.floorDiv j 2)) 2) (xor2x2 (.floorMod i 2) (.floorMod j 2))

/-- `ICHECK`. -/
def icheck (c : Prop) [Decidable c] : Option Unit := if c then some () else none

/-- `128 / element_size`, which has no value for elements of no bits; with more than 128 bits
it is a zero that is divided by next. -/
def vectorSize (elementSize : ℕ) : Option ℕ :=
  if 0 < elementSize ∧ elementSize ≤ 128 then some (128 / elementSize) else none

/-- `makeHalfBankSwizzleLayout`. -/
def makeHalfBankSwizzleLayout (stride continuous elementSize : ℕ) : Option Layout := do
  let vectorSize ← vectorSize elementSize
  icheck (stride % 8 = 0)
  icheck (continuous % (vectorSize * 4) = 0)
  let ts := Expr.floorDiv .row 8
  let s := Expr.floorMod .row 8
  let tc := Expr.floorDiv (.floorDiv .col vectorSize) 4
  let c := Expr.floorMod (.floorDiv .col vectorSize) 4
  let vec := Expr.floorMod .col vectorSize
  let cSwizzle := xor4x4 c (.floorDiv s 2)
  let index := Expr.add vec (.mul (.add cSwizzle (.mul s 4)) vectorSize)
  return ⟨stride, continuous, [tc, ts, index]⟩

/-- `makeFullBankSwizzleLayout`. -/
def makeFullBankSwizzleLayout (stride continuous elementSize : ℕ) : Option Layout := do
  let vectorSize ← vectorSize elementSize
  icheck (stride % 8 = 0)
  icheck (continuous % (vectorSize * 8) = 0)
  let ts := Expr.floorDiv .row 8
  let s := Expr.floorMod .row 8
  let tc := Expr.floorDiv (.floorDiv .col vectorSize) 8
  let c := Expr.floorMod (.floorDiv .col vectorSize) 8
  let vec := Expr.floorMod .col vectorSize
  let cSwizzle := xor8x8 c s
  let index := Expr.add vec (.mul (.add cSwizzle (.mul s 8)) vectorSize)
  return ⟨stride, continuous, [tc, ts, index]⟩

/-- `vecSize` of `makeMatrixCoreSwizzleLayout`. -/
def vecSize (kPack : ℕ) : ℕ := 4 * kPack

/-- `perPhase`: how many rows share a phase. -/
def perPhase (continuous elementSize : ℕ) : ℕ := max 1 (32 * 32 / elementSize / continuous)

/-- `maxPhase`. -/
def maxPhase (continuous elementSize kPack : ℕ) : ℕ :=
  min (16 / perPhase continuous elementSize) (continuous / vecSize kPack)

/-- `makeMatrixCoreSwizzleLayout`. Without a column, a pack or a phase it divides by zero. -/
def makeMatrixCoreSwizzleLayout (stride continuous elementSize kPack : ℕ) : Option Layout := do
  icheck (0 < elementSize ∧ 0 < continuous ∧ 0 < kPack)
  icheck (0 < maxPhase continuous elementSize kPack)
  let phase := Expr.floorMod (.floorDiv .row (perPhase continuous elementSize))
    (maxPhase continuous elementSize kPack)
  let colOffSwizzled := Expr.mul (.xor (.floorDiv .col (vecSize kPack)) phase) (vecSize kPack)
  let colOffOrdered := Expr.floorMod .col (vecSize kPack)
  let colOff := Expr.add colOffSwizzled colOffOrdered
  return ⟨stride, continuous, [.row, colOff]⟩

/-- `makeGemmABLayoutF64_Kinner`. -/
def makeGemmABLayoutF64Kinner (stride continuous : ℕ) : Layout :=
  let tc := Expr.floorDiv .col 16
  let ts := Expr.floorDiv .row 4
  let c := Expr.floorMod .col 16
  let s := Expr.floorMod .row 4
  let swizzledC := Expr.add (.mul (.floorDiv c 4) 4) (xor4x4 (.floorMod c 4) s)
  let index := Expr.add swizzledC (.mul s 16)
  ⟨stride, continuous, [tc, ts, index]⟩

/-- `makeGemmABLayoutF64_Kouter`. -/
def makeGemmABLayoutF64Kouter (stride continuous : ℕ) : Layout :=
  let tc := Expr.floorDiv .col 16
  let ts := Expr.floorDiv .row 4
  let c := Expr.floorMod .col 16
  let s := Expr.floorMod .row 4
  let swizzledC := Expr.add (.floorMod c 4) (.mul (xor4x4 (.floorDiv c 4) s) 4)
  let index := Expr.add swizzledC (.mul s 16)
  ⟨stride, continuous, [tc, ts, index]⟩

/-- `padded` of `makeGemmABLayoutPadded`. -/
def paddedExtent (continuous elementSize : ℕ) : ℕ :=
  if elementSize * continuous % 256 = 0 then continuous + 128 / elementSize else continuous

/-- `makeGemmABLayoutPadded`. -/
def makeGemmABLayoutPadded (stride continuous elementSize : ℕ) : Layout :=
  ⟨stride, continuous, [.add (.mul .row (paddedExtent continuous elementSize)) .col]⟩

/-- `MakeGemmVoltaABLayoutCrosswise`. -/
def makeGemmVoltaABLayoutCrosswise (stride continuous : ℕ) : Option Layout := do
  icheck (stride % 32 = 0 ∧ continuous % 32 = 0)
  let vecContiguousIdx := Expr.floorDiv .col 4
  let vecStridedWithinTile := Expr.floorMod vecContiguousIdx 8
  let bit2 := Expr.floorMod (.add (.add (.floorDiv (.floorMod .row 32) 16)
    (.floorDiv (.floorMod .row 16) 8)) (.floorDiv vecStridedWithinTile 4)) 2
  let bit1 := xor2x2 (.floorDiv (.floorMod .row 8) 4) (.floorDiv (.floorMod vecStridedWithinTile 4) 2)
  let permutedVecContiguous := Expr.add (.add (.add (.mul (.floorDiv .row 16) 16)
    (.mul (.floorMod .row 4) 4)) (.mul bit2 2)) bit1
  let offset := Expr.add (.add (.floorMod .col 4) (.mul permutedVecContiguous 4))
    (.mul (.mul vecContiguousIdx stride) 4)
  return ⟨stride, continuous, [offset]⟩

/-- The common part of `MakeGemmVoltaALayoutCongruous` and `MakeGemmVoltaBLayoutCongruous`, which
split the residual of a tile into the row of the tile and the half of the column. -/
def makeGemmVoltaLayoutCongruous (split : Expr → Expr × Expr) (stride continuous : ℕ) :
    Option Layout := do
  icheck (stride % 4 = 0 ∧ continuous % 64 = 0)
  let vecContiguousIdx := Expr.floorDiv .col 8
  let vecStridedIdx := Expr.row
  let tileContiguousIdx := Expr.floorDiv vecContiguousIdx 8
  let tileStridedIdx := Expr.floorDiv vecStridedIdx 4
  let tileContiguousResidual := Expr.floorMod vecContiguousIdx 8
  let tileStridedResidual := Expr.floorMod vecStridedIdx 4
  let (permutedStridedWithinTile, half) := split tileContiguousResidual
  let permutedContiguousWithinTile :=
    Expr.add (.mul half 4) (xor4x4 tileStridedResidual permutedStridedWithinTile)
  let elementStrided := Expr.add permutedStridedWithinTile (.mul tileStridedIdx 4)
  let elementContiguous := Expr.add (.floorMod .col 8)
    (.mul (.add permutedContiguousWithinTile (.mul tileContiguousIdx 8)) 8)
  let offset := Expr.add (.mul elementStrided continuous) elementContiguous
  return ⟨stride, continuous, [offset]⟩

/-- `MakeGemmVoltaALayoutCongruous`. -/
def makeGemmVoltaALayoutCongruous : ℕ → ℕ → Option Layout :=
  makeGemmVoltaLayoutCongruous fun residual => (.floorDiv residual 2, .floorMod residual 2)

/-- `MakeGemmVoltaBLayoutCongruous`. -/
def makeGemmVoltaBLayoutCongruous : ℕ → ℕ → Option Layout :=
  makeGemmVoltaLayoutCongruous fun residual => (.floorMod residual 4, .floorDiv residual 4)

/-! ## The choice of a layout -/

/-- `makeGemmVoltaABLayout`. -/
def makeGemmVoltaABLayout (stride continuous : ℕ) (isA : Bool) (kfactor : ℕ) : Option Layout :=
  if kfactor = 2 then makeGemmVoltaABLayoutCrosswise stride continuous
  else if isA = true ∧ continuous % 64 = 0 then makeGemmVoltaALayoutCongruous stride continuous
  else if isA = false ∧ continuous % 64 = 0 then makeGemmVoltaBLayoutCongruous stride continuous
  else some (makeGemmABLayoutPadded stride continuous 16)

/-- `makeGemmABLayout`. -/
def makeGemmABLayout (matStride matContinuous continuity elementSize kfactor : ℕ) :
    Option Layout :=
  if elementSize = 64 then
    if kfactor = 1 ∧ continuity % 16 = 0 then some (makeGemmABLayoutF64Kouter matStride matContinuous)
    else if kfactor = 2 ∧ continuity % 16 = 0 then
      some (makeGemmABLayoutF64Kinner matStride matContinuous)
    else some (makeGemmABLayoutPadded matStride matContinuous elementSize)
  else do
    let vectorSize ← vectorSize elementSize
    if kfactor = 1 ∧ elementSize = 8 then
      some (makeGemmABLayoutPadded matStride matContinuous elementSize)
    else if matContinuous % (vectorSize * 8) = 0 then
      makeFullBankSwizzleLayout matStride matContinuous elementSize
    else if matContinuous % (vectorSize * 4) = 0 then
      makeHalfBankSwizzleLayout matStride matContinuous elementSize
    else some (makeGemmABLayoutPadded matStride matContinuous elementSize)

/-- `makeGemmABLayoutCDNA`. -/
def makeGemmABLayoutCDNA (stride continuous elementSize kPack : ℕ) : Option Layout := do
  let vectorSize ← vectorSize elementSize
  if continuous % (vectorSize * 4) = 0 then
    makeMatrixCoreSwizzleLayout stride continuous elementSize kPack
  else some (makeGemmABLayoutPadded stride continuous elementSize)

/-- What a layout is asked for. -/
inductive Request : Type where
  | ab (matStride matContinuous continuity elementSize kfactor : ℕ)
  | volta (stride continuous : ℕ) (isA : Bool) (kfactor : ℕ)
  | cdna (stride continuous elementSize kPack : ℕ)

def Request.make : Request → Option Layout
  | .ab matStride matContinuous continuity elementSize kfactor =>
    makeGemmABLayout matStride matContinuous continuity elementSize kfactor
  | .volta stride continuous isA kfactor => makeGemmVoltaABLayout stride continuous isA kfactor
  | .cdna stride continuous elementSize kPack =>
    makeGemmABLayoutCDNA stride continuous elementSize kPack

end TileLangNpuir.GemmLayout
