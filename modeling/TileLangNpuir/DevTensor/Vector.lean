import TileLangNpuir.DevTensor.Copy

/-!
# Elementwise vector ops in developer mode

`UnaryVecOpCodegen` and `CreateHIVMBinaryVectorOp` of `src/target/codegen_npuir_dev.cc`. The
operands are slices of tensors, whole tensors or scalars; the op writes the destination itself, or
a new tensor of the shape of its first operand that is then inserted. A HIVM op reads an operand
dimension of size one at its only element, where the dimension is listed as a broadcast.
-/

namespace TileLangNpuir.DevTensor

open RowMajor

variable {τ V : Type}

/-! ## HIVM ops -/

/-- An operand of a HIVM op. -/
inductive Operand (V : Type) : Type where
  | tensor (t : Tensor V)
  | scalar (x : V)

/-- The point an operand is read at: the origin in a dimension of size one. -/
def clamp : List ℤ → List ℤ → List ℤ
  | n :: ns, x :: xs => (if n = 1 then 0 else x) :: clamp ns xs
  | _, _ => []

/-- The element an operand gives for a point of the output. -/
def Operand.at (p : List ℤ) : Operand V → V
  | tensor t => t.elem (clamp t.shape p)
  | scalar x => x

/-- A dimension of the operand is that of the output, or a one that is broadcast. -/
def FitsShape (broadcast : List ℕ) (shape out : List ℤ) : Prop :=
  shape.length = out.length ∧
    ∀ j < out.length, shape[j]? = out[j]? ∨ shape[j]? = some 1 ∧ j ∈ broadcast

instance (broadcast : List ℕ) (shape out : List ℤ) : Decidable (FitsShape broadcast shape out) :=
  inferInstanceAs (Decidable (_ ∧ _))

def Operand.Fits (broadcast : List ℕ) (out : List ℤ) : Operand V → Prop
  | tensor t => FitsShape broadcast t.shape out
  | scalar _ => True

instance (broadcast : List ℕ) (out : List ℤ) (o : Operand V) : Decidable (o.Fits broadcast out) :=
  match o with
  | .tensor t => inferInstanceAs (Decidable (FitsShape broadcast t.shape out))
  | .scalar _ => inferInstanceAs (Decidable True)

/-- An elementwise HIVM op with an output of shape `out`. -/
def hivmOp (f : List V → V) (ins : List (Operand V)) (out : List ℤ) (broadcast : List ℕ) :
    Option (Tensor V) :=
  if ∀ o ∈ ins, o.Fits broadcast out then some ⟨out, fun p => f (ins.map (Operand.at p))⟩ else none

/-- One of the two dimensions is a one and the other is not. -/
def oneSided (shape0 shape1 : List ℤ) (j : ℕ) : Bool := (shape0[j]? = some 1) != (shape1[j]? = some 1)

/-- `getBroadcastDim`; `none` is a failed `CHECK`. -/
def getBroadcastDim (shape0 shape1 : List ℤ) : Option (List ℕ) :=
  if shape0 = [] ∨ shape1 = [] then some []
  else if shape0.length = shape1.length ∧
      ∀ j < shape0.length, oneSided shape0 shape1 j = true ∨ shape0[j]? = shape1[j]? then
    some ((List.range shape0.length).filter (oneSided shape0 shape1))
  else none

/-! ## Slices -/

/-- `GenExtractSliceFromRegion`. -/
def genExtractSliceFromRegion (t : Tensor V) (range : List (ℤ × ℤ)) : Option (Tensor V) :=
  if IsWhole t.shape range then some t else extractSlice t range (extents range)

/-- `NeedGenInsertSlice`: the output tensor of the op, and whether it is to be inserted. -/
def needGenInsertSlice (T : Target τ V) (dst : Tensor V) (range : List (ℤ × ℤ))
    (srcShape : List ℤ) : Tensor V × Bool :=
  if IsWhole dst.shape range then (dst, false) else (⟨srcShape, T.empty 0⟩, true)

/-- The first shape with its first dimensions taken together is the second. -/
def collapses (src dst : List ℤ) : Bool :=
  match dst with
  | [] => src.all fun n => n = 1
  | m :: ms =>
    let extraDims := src.length - dst.length
    (src.take (extraDims + 1)).prod = m && src.drop (extraDims + 1) = ms

/-- One shape can be made the other by taking first dimensions together or apart. -/
def reshapes (src dst : List ℤ) : Bool :=
  src = dst ||
    if src.length < dst.length then collapses dst src
    else if dst.length < src.length then collapses src dst
    else src.prod = dst.prod

/-- `ReshapeTensorImpl`: `expand_shape`, `collapse_shape`, or both through one dimension. -/
def reshapeTensorImpl (src : Tensor V) (shape : List ℤ) : Option (Tensor V) :=
  if src.shape = shape then some src
  else if src.shape.length < shape.length then
    if collapses shape src.shape then some (src.reshape shape) else none
  else if shape.length < src.shape.length then
    if collapses src.shape shape then some (src.reshape shape) else none
  else if src.shape.prod = shape.prod then some (src.reshape shape)
  else none

variable [DecidableEq τ] (T : Target τ V)

/-- `ReshapeCastAndInsertSlice`. -/
def reshapeCastAndInsertSlice (src dst : TypedTensor τ V) (range : List (ℤ × ℤ)) :
    Option (TypedTensor τ V) := do
  let reshaped ← reshapeTensorImpl src.tensor (extents range)
  let casted := createCastIfTypeMismatch T ⟨src.elemTy, reshaped⟩ dst.elemTy
  let result ← insertSlice casted.tensor dst.tensor range
  return ⟨dst.elemTy, result⟩

/-! ## Vector ops -/

/-- What an op leaves: the shape of its output tensor and the new destination. -/
structure Emitted (τ V : Type) : Type where
  outShape : List ℤ
  result : TypedTensor τ V

/-- The part that the generators share: the op on its operands, into the destination or inserted
into it. -/
def emitVectorOp (f : List V → V) (ins : List (Operand V)) (dims : List ℕ) (srcShape : List ℤ)
    (dst : TypedTensor τ V) (dstR : List (ℤ × ℤ)) : Option (Emitted τ V) := do
  let (insertBase, needInsertSlice) := needGenInsertSlice T dst.tensor dstR srcShape
  let newOpValue ← hivmOp f ins insertBase.shape dims
  if needInsertSlice then
    let result ← reshapeCastAndInsertSlice T ⟨dst.elemTy, newOpValue⟩ dst dstR
    return ⟨insertBase.shape, result⟩
  else return ⟨insertBase.shape, ⟨dst.elemTy, newOpValue⟩⟩

/-- `UnaryVecOpCodegen`, with static extents. -/
def unaryVecOpCodegen (f : List V → V) (src : Tensor V) (srcR : List (ℤ × ℤ))
    (dst : TypedTensor τ V) (dstR : List (ℤ × ℤ)) : Option (Emitted τ V) := do
  let slice ← genExtractSliceFromRegion src srcR
  let dims ← getBroadcastDim (extents srcR) (extents dstR)
  emitVectorOp T f [.tensor slice] dims slice.shape dst dstR

/-- A source of a binary op. A scalar is given with the element type of the other operand, as
`ScalarConvertType` brings it to. -/
inductive Source (V : Type) : Type where
  | scalar (x : V)
  | region (t : Tensor V) (range : List (ℤ × ℤ))

/-- All extents are one. -/
def AllOnes (shape : List ℤ) : Prop := ∀ n ∈ shape, n = 1

instance (shape : List ℤ) : Decidable (AllOnes shape) := inferInstanceAs (Decidable (∀ _ ∈ _, _))

/-- `processImm`: the operand, and the shape it stands for in `getBroadcastDim`. A region of one
element is loaded as a scalar on the right; on the left the whole buffer is taken. -/
def processImm (argId : ℕ) : Source V → Option (Operand V × List ℤ)
  | .scalar x => some (.scalar x, [])
  | .region t range =>
    if range = [] then none
    else if AllOnes (extents range) then
      if argId = 0 then some (.tensor t, t.shape)
      else some (.scalar (t.elem (range.map Prod.fst)), [])
    else do
      let slice ← genExtractSliceFromRegion t range
      return (.tensor slice, slice.shape)

/-- `CreateHIVMBinaryVectorOp`. -/
def createHIVMBinaryVectorOp (f : List V → V) (src0 src1 : Source V) (dst : TypedTensor τ V)
    (dstR : List (ℤ × ℤ)) : Option (Emitted τ V) := do
  let (arg0, shape0) ← processImm 0 src0
  let (arg1, shape1) ← processImm 1 src1
  match arg0 with
  | .tensor t => do
    let dims ← getBroadcastDim shape0 shape1
    emitVectorOp T f [arg0, arg1] dims t.shape dst dstR
  | .scalar _ => none

end TileLangNpuir.DevTensor
