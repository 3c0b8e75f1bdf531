import TileLangNpuir.DevTensor.Whole
import TileLangNpuir.Lib.DropFirst

/-!
# Binary vector ops in expert mode

`CreateHIVMBinaryVectorOp` of `src/target/codegen_npuir_api.cc`. The operands are views of
memrefs, brought to the smallest rank among them by leaving out dimensions of size one: each view
leaves out its own first ones (`GenRankReducedSubviewFromRegion`), whichever dimensions these are.
-/

namespace TileLangNpuir.ApiMemref

open RowMajor DevTensor

variable {V : Type}

/-! ## Views -/

/-- `GenRankReducedSubviewFromRegion`: the dimensions that are kept, with their extents. -/
def reducedDims (sizes : List ℤ) (minRank : ℕ) : List Dim :=
  let numNonStatic1 := sizes.countP fun n => n ≠ 1
  let totalStatic1 := sizes.length - numNonStatic1
  let static1ToKeep := minRank - numNonStatic1
  let static1ToDrop := totalStatic1 - static1ToKeep
  let keptDims := dropFirst (fun d => d.1 = 1) static1ToDrop sizes.zipIdx
  if keptDims = [] then [(1, sizes.length - 1)] else keptDims

/-- The dimensions of a view in `ProcessTensor`: all of them, or reduced. -/
def viewDims (rankMin : ℕ) (sizes : List ℤ) : List Dim :=
  if rankMin = sizes.length then sizes.zipIdx else reducedDims sizes rankMin

def viewShape (rankMin : ℕ) (sizes : List ℤ) : List ℤ := (viewDims rankMin sizes).map Prod.fst

/-! ## Operands -/

/-- The operands of an op that have to be vectors. -/
structure Traits : Type where
  vectorOnly0 : Bool
  vectorOnly1 : Bool

/-- The value that an operand is loaded as, if it is not taken as a vector. -/
def preProcessInput (enableScaler : Bool) : Source V → Option V
  | .scalar x => some x
  | .region t range =>
    if enableScaler = true ∧ AllOnes (extents range) then some (t.elem (range.map Prod.fst))
    else none

def isTensor : Source V → Bool
  | .scalar _ => false
  | .region _ _ => true

def rankOf : Source V → ℕ
  | .scalar _ => 0
  | .region _ range => range.length

/-- An operand with the dimensions of its view. -/
def processTensor (rankMin : ℕ) (loaded : Option V) (src : Source V) :
    Option (Operand V × Option (List Dim)) :=
  match loaded, src with
  | some x, _ => some (.scalar x, none)
  | none, .scalar _ => none
  | none, .region t range => do
    let view ← extractSlice t range (viewShape rankMin (extents range))
    return (.tensor view, some (viewDims rankMin (extents range)))

/-- The shape of an operand in `getBroadcastDim`. -/
def shapeOf (view : Option (List Dim)) : List ℤ := (view.getD []).map Prod.fst

/-- The views of an op, and the destination after it. -/
structure EmittedOp (V : Type) : Type where
  view0 : Option (List Dim)
  view1 : Option (List Dim)
  dstView : List Dim
  result : Tensor V

/-- The op on its operands, written through the view of the destination. There is no op on two
scalars. -/
def emitOp (f : List V → V) (arg0 arg1 : Operand V × Option (List Dim)) (dstView : List Dim)
    (dst : Tensor V) (dstR : List (ℤ × ℤ)) : Option (EmittedOp V) := do
  let dims ← getBroadcastDim (shapeOf arg0.2) (shapeOf arg1.2)
  if arg0.2 = none ∧ arg1.2 = none then none
  else
    let value ← hivmOp f [arg0.1, arg1.1] (dstView.map Prod.fst) dims
    let result ← insertSlice value dst dstR
    return ⟨arg0.2, arg1.2, dstView, result⟩

/-- `CreateHIVMBinaryVectorOp`. -/
def createHIVMBinaryVectorOp (traits : Traits) (f : List V → V) (src0 src1 : Source V)
    (dst : Tensor V) (dstR : List (ℤ × ℤ)) : Option (EmittedOp V) :=
  if (traits.vectorOnly0 = true → isTensor src0 = true) ∧
      (traits.vectorOnly1 = true → isTensor src1 = true) ∧
      (isTensor src0 = true ∨ isTensor src1 = true) then do
    let loaded0 := preProcessInput (isTensor src1 && !traits.vectorOnly0) src0
    let loaded1 := preProcessInput (isTensor src0 && !traits.vectorOnly1) src1
    let rankMin := if loaded0.isSome then dstR.length else min dstR.length (rankOf src0)
    let rankMin := if loaded1.isSome then rankMin else min rankMin (rankOf src1)
    let arg0 ← processTensor rankMin loaded0 src0
    let arg1 ← processTensor rankMin loaded1 src1
    emitOp f arg0 arg1 (viewDims rankMin (extents dstR)) dst dstR
  else none

/-! ## Calls -/

/-- A call in which one source has the rank of the destination. -/
structure BinaryCall : Type where
  /-- this source stands on the left -/
  fullFirst : Bool
  full : Region
  other : Region
  dst : Region

namespace BinaryCall

variable (call : BinaryCall)

/-- In-bounds regions; the extents of the one source broadcast to those of the destination, and
those of the other are the destination's without some ones. -/
structure WellFormed : Prop where
  full : Within call.full.shape call.full.range
  other : Within call.other.shape call.other.range
  dst : Within call.dst.shape call.dst.range
  broadcasts : Broadcasts call.full.size call.dst.size
  reduced : rankReduced call.dst.size call.other.size = true

/-- Two values in the order of the operands. -/
def order {α : Type} (full other : α) : List α :=
  if call.fullFirst then [full, other] else [other, full]

def codegen (traits : Traits) (f : List V → V) (fullElem otherElem dstElem : List ℤ → V) :
    Option (EmittedOp V) :=
  let full : Source V := .region (call.full.tensor fullElem) call.full.range
  let other : Source V := .region (call.other.tensor otherElem) call.other.range
  if call.fullFirst then
    createHIVMBinaryVectorOp traits f full other (call.dst.tensor dstElem) call.dst.range
  else createHIVMBinaryVectorOp traits f other full (call.dst.tensor dstElem) call.dst.range

/-- The value for a point of the destination region. The dimensions that the other source does not
have are ones, so its elements go by their number. -/
def value (f : List V → V) (fullElem otherElem : List ℤ → V) (q : List ℤ) : V :=
  f (call.order (call.full.read fullElem (clamp call.full.size q))
    (call.other.read otherElem (unflatten call.other.size (flatten call.dst.size q))))

/-- In each place the view has the dimension that the destination view has there, or a one where
the source broadcasts. -/
def SameDims (sizes : List ℤ) (view dstView : List Dim) : Prop :=
  List.Forall₂ (fun s d => s.2 = d.2 ∨ s.1 = 1 ∧ sizes[d.2]? = some 1) view dstView

/-- The view of the one source. -/
def fullView (e : EmittedOp V) : Option (List Dim) := if call.fullFirst then e.view0 else e.view1

/-- The views of the op line up, and each element of the destination region gets the op applied to
the source elements at the same coordinates. -/
def Given (f : List V → V) (fullElem otherElem dstElem : List ℤ → V)
    (emitted : Option (EmittedOp V)) : Prop :=
  ∃ e, emitted = some e ∧
    (∀ view ∈ [e.view0, e.view1], ∀ v ∈ view, v.length = e.dstView.length) ∧
    (∀ v ∈ call.fullView e, SameDims call.full.size v e.dstView) ∧
    RegionCall.Replaces call.dst dstElem (call.value f fullElem otherElem) e.result

/-- So it is whatever the buffers hold. -/
def Aligns (traits : Traits) (f : List V → V) : Prop :=
  ∀ fullElem otherElem dstElem : List ℤ → V,
    call.Given f fullElem otherElem dstElem
      (call.codegen traits f fullElem otherElem dstElem)

/-- The source may be loaded as a scalar. -/
def fullScalar (traits : Traits) : Bool :=
  if call.fullFirst then !traits.vectorOnly0 else !traits.vectorOnly1

def otherScalar (traits : Traits) : Bool :=
  if call.fullFirst then !traits.vectorOnly1 else !traits.vectorOnly0

/-- How many dimensions the other source lacks. -/
def lacks : ℕ := call.dst.size.length - call.other.size.length

/-- The other source lacks the first ones of the destination, and from the first dimension in
which the one source broadcasts up to the last of these it has only ones. A destination of one
element needs an operand that is not loaded as a scalar. -/
def LinedUp (traits : Traits) : Prop :=
  ¬(call.fullScalar traits = true ∧ call.otherScalar traits = true ∧ AllOnes call.dst.size) ∧
    (call.otherScalar traits = true ∧ AllOnes call.dst.size ∨
      call.other.size = dropFirst (fun n => n = 1) call.lacks call.dst.size ∧
      (call.other.size = [] → call.dst.size = []) ∧
      aligned (fun d => d.1 = 1) (fun d => d.2 = 1) call.lacks
        (call.dst.size.zip call.full.size) = true)

end BinaryCall

/-! ## Views of a smaller rank -/

section Views

variable {e : List ℤ} {m : ℕ}

theorem countP_ones (e : List ℤ) : e.countP (fun n => n = 1) + (backbone e).length = e.length := by
  rw [backbone, ← List.countP_eq_length_filter, List.length_eq_countP_add_countP (fun n => n = 1)]
  simp

theorem countP_zipIdx (e : List ℤ) :
    e.zipIdx.countP (fun d => d.1 = 1) = e.countP (fun n => n = 1) := by
  conv_rhs => rw [← List.zipIdx_map_fst 0 e, List.countP_map]
  rfl

theorem length_dropFirst_zipIdx (hle : m ≤ e.length) (hback : (backbone e).length ≤ m) :
    (dropFirst (fun d => d.1 = 1) (e.length - m) e.zipIdx).length = m := by
  have hones := countP_ones e
  have hcount : e.length - m ≤ e.zipIdx.countP fun d => d.1 = 1 := by
    rw [countP_zipIdx]
    omega
  have := length_dropFirst hcount
  rw [List.length_zipIdx] at this
  omega

/-- The dimensions that a view keeps, if it keeps any. -/
theorem viewDims_eq (hle : m ≤ e.length) (hback : (backbone e).length ≤ m)
    (hne : m = 0 → e = []) :
    viewDims m e = dropFirst (fun d => d.1 = 1) (e.length - m) e.zipIdx := by
  rw [viewDims]
  split
  case isTrue heq => rw [heq, Nat.sub_self, dropFirst_zero]
  case isFalse hlt =>
    have hnum : e.length - e.countP (fun n => n ≠ 1) - (m - e.countP (fun n => n ≠ 1)) =
        e.length - m := by
      rw [List.countP_eq_length_filter]
      change e.length - (backbone e).length - (m - (backbone e).length) = _
      omega
    have hkept := length_dropFirst_zipIdx hle hback
    simp only [reducedDims, hnum]
    refine if_neg fun hnil => ?_
    rw [hnil] at hkept
    obtain rfl : m = 0 := hkept.symm
    rw [hne rfl] at hlt
    exact hlt rfl

theorem viewShape_eq (hle : m ≤ e.length) (hback : (backbone e).length ≤ m)
    (hne : m = 0 → e = []) : viewShape m e = dropFirst (fun n => n = 1) (e.length - m) e := by
  have hmap := dropFirst_map (p := fun n : ℤ => decide (n = 1)) Prod.fst (e.length - m) e.zipIdx
  rw [List.zipIdx_map_fst] at hmap
  rw [viewShape, viewDims_eq hle hback hne, hmap]

/-- A view that keeps nothing is given one dimension back. -/
theorem viewShape_zero (hback : backbone e = []) (hne : e ≠ []) : viewShape 0 e = [1] := by
  have hkept := length_dropFirst_zipIdx (Nat.zero_le e.length) (by rw [hback]; rfl)
  have hcount : e.countP (fun n => n ≠ 1) = 0 := by
    rw [List.countP_eq_length_filter]
    exact List.length_eq_zero_iff.mpr hback
  rw [viewShape, viewDims, if_neg fun h => hne (List.length_eq_zero_iff.mp h.symm)]
  simp only [reducedDims, hcount, Nat.sub_zero]
  rw [Nat.sub_zero] at hkept
  rw [if_pos (List.length_eq_zero_iff.mp hkept)]
  rfl

theorem rankReduced_dropFirst (n : ℕ) (e : List ℤ) :
    rankReduced e (dropFirst (fun n => n = 1) n e) = true := by
  refine rankReduced_iff.mpr ⟨dropFirst_sublist _ _ _, ?_⟩
  induction e generalizing n with
  | nil => cases n <;> rfl
  | cons x e ih =>
    cases n with
    | zero => rw [dropFirst_zero]
    | succ n =>
      by_cases hx : x = 1
      · rw [dropFirst_cons_pos (by simpa using hx), backbone_cons, if_pos hx, ih]
      · rw [dropFirst_cons_neg (by simpa using hx), backbone_cons, if_neg hx, backbone_cons,
          if_neg hx, ih]

end Views

namespace BinaryCall

/-! ## The two orders -/

section Order

variable {call : BinaryCall} {f : List V → V} {traits : Traits} {fullElem otherElem dstElem : List ℤ → V}

theorem getBroadcastDim_comm (e e' : List ℤ) : getBroadcastDim e e' = getBroadcastDim e' e := by
  have hside : oneSided e e' = oneSided e' e := by
    funext j
    rw [Bool.eq_iff_iff, oneSided_iff, oneSided_iff]
    exact not_congr iff_comm
  by_cases hnil : e = [] ∨ e' = []
  · simp only [getBroadcastDim, if_pos hnil, if_pos hnil.symm]
  · have hnil' : ¬(e' = [] ∨ e = []) := fun h => hnil h.symm
    simp only [getBroadcastDim, if_neg hnil, if_neg hnil', hside]
    by_cases hlen : e.length = e'.length
    · have heq : ∀ j : ℕ, (e[j]? = e'[j]?) = (e'[j]? = e[j]?) := fun _ => propext eq_comm
      simp only [hlen, heq]
    · rw [if_neg fun h => hlen h.1, if_neg fun h => hlen h.1.symm]

variable (call) in
/-- The op with the sources put in order. -/
def emit (f : List V → V) (full other : Operand V × Option (List Dim)) (rankMin : ℕ)
    (dstElem : List ℤ → V) : Option (EmittedOp V) :=
  let dstView := viewDims rankMin call.dst.size
  if call.fullFirst then emitOp f full other dstView (call.dst.tensor dstElem) call.dst.range
  else emitOp f other full dstView (call.dst.tensor dstElem) call.dst.range

variable (call) in
/-- The smallest rank of the destination and the sources that are not loaded. -/
def rankMin (fullLoaded otherLoaded : Bool) : ℕ :=
  let rank := if fullLoaded then call.dst.size.length
    else min call.dst.size.length call.full.size.length
  if otherLoaded then rank else min rank call.other.size.length

theorem codegen_eq :
    call.codegen traits f fullElem otherElem dstElem =
      let full : Source V := .region (call.full.tensor fullElem) call.full.range
      let other : Source V := .region (call.other.tensor otherElem) call.other.range
      let loadedFull := preProcessInput (call.fullScalar traits) full
      let loadedOther := preProcessInput (call.otherScalar traits) other
      let rankMin := call.rankMin loadedFull.isSome loadedOther.isSome
      (processTensor rankMin loadedFull full).bind fun full =>
        (processTensor rankMin loadedOther other).bind fun other =>
          call.emit f full other rankMin dstElem := by
  have hlen : ∀ r : Region, r.range.length = r.size.length := fun r => by
    rw [Region.size, extents, List.length_map]
  cases horder : call.fullFirst with
  | true =>
    simp only [codegen, emit, rankMin, fullScalar, otherScalar, horder, createHIVMBinaryVectorOp,
      isTensor, rankOf, hlen, implies_true, true_or, and_self, if_true, Bool.true_and,
      Option.bind_eq_bind]
    rfl
  | false =>
    simp only [codegen, emit, rankMin, fullScalar, otherScalar, horder, createHIVMBinaryVectorOp,
      isTensor, rankOf, hlen, implies_true, true_or, and_self, if_true, Bool.true_and,
      Option.bind_eq_bind, Bool.false_eq_true, if_false]
    have hrank : ∀ (x y : Bool) (d m n : ℕ),
        (if x then (if y then d else min d m) else min (if y then d else min d m) n) =
          if y then (if x then d else min d n) else min (if x then d else min d n) m := by
      intro x y d m n
      cases x <;> cases y <;> simp [min_right_comm]
    rw [hrank, Option.bind_comm]
    rfl

variable {full other : Operand V × Option (List Dim)} {m : ℕ} {dims : List ℕ}

/-- An op whose operands fit, through the view of the destination. -/
theorem emitOp_spec (f : List V → V) {arg0 arg1 : Operand V × Option (List Dim)}
    {dstView : List Dim} (dst : Tensor V) {dstR : List (ℤ × ℤ)} (hviews : ¬(arg0.2 = none ∧ arg1.2 = none))
    (hdims : getBroadcastDim (shapeOf arg0.2) (shapeOf arg1.2) = some dims)
    (hfits : ∀ o ∈ [arg0.1, arg1.1], o.Fits dims (dstView.map Prod.fst))
    (hdst : Within dst.shape dstR)
    (hred : rankReduced (extents dstR) (dstView.map Prod.fst) = true) :
    ∃ r, emitOp f arg0 arg1 dstView dst dstR = some ⟨arg0.2, arg1.2, dstView, r⟩ ∧
      r.shape = dst.shape ∧
      (∀ q, InBox (extents dstR) q → r.elem (toGlobal dstR q) =
        f ([arg0.1, arg1.1].map
          (Operand.at (unflatten (dstView.map Prod.fst) (flatten (extents dstR) q))))) ∧
      ∀ p, ¬InRanges dstR p → r.elem p = dst.elem p := by
  obtain ⟨r, hr, hshape, hin, hout⟩ := insertSlice_of_within dst hdst
    (show rankReduced (extents dstR) (Tensor.mk (dstView.map Prod.fst) fun p =>
      f ([arg0.1, arg1.1].map (Operand.at p))).shape = true from hred)
  refine ⟨r, ?_, hshape, fun q hq => ?_, hout⟩
  · rw [emitOp]
    simp only [hdims, Option.bind_eq_bind, Option.bind_some]
    rw [if_neg hviews, RegionCall.hivmOp_of_fits hfits, Option.bind_some, hr]
    rfl
  · rw [hin _ (inRanges_toGlobal hq), toLocal_toGlobal hq]
    rfl

theorem of_emitOp {arg0 arg1 : Operand V × Option (List Dim)} {dstView : List Dim}
    {dst : Tensor V} {dstR : List (ℤ × ℤ)} {e : EmittedOp V}
    (h : emitOp f arg0 arg1 dstView dst dstR = some e) :
    ¬(arg0.2 = none ∧ arg1.2 = none) ∧
      ∃ dims, getBroadcastDim (shapeOf arg0.2) (shapeOf arg1.2) = some dims ∧
        ∀ o ∈ [arg0.1, arg1.1], o.Fits dims (dstView.map Prod.fst) := by
  rw [emitOp] at h
  obtain ⟨dims, hdims, h⟩ := Option.bind_eq_some_iff.mp h
  split at h
  · cases h
  case isFalse hviews =>
    obtain ⟨value, hvalue, -⟩ := Option.bind_eq_some_iff.mp h
    exact ⟨hviews, dims, hdims, (fits_of_hivmOp hvalue).1⟩

variable (f full other dstElem) in
theorem emit_spec (hviews : ¬(full.2 = none ∧ other.2 = none))
    (hdims : getBroadcastDim (shapeOf full.2) (shapeOf other.2) = some dims)
    (hfull : full.1.Fits dims (viewShape m call.dst.size))
    (hother : other.1.Fits dims (viewShape m call.dst.size))
    (hdst : Within call.dst.shape call.dst.range)
    (hred : rankReduced call.dst.size (viewShape m call.dst.size) = true) :
    ∃ e, call.emit f full other m dstElem = some e ∧ e.dstView = viewDims m call.dst.size ∧
      (∀ v ∈ [e.view0, e.view1], v = full.2 ∨ v = other.2) ∧ call.fullView e = full.2 ∧
      e.result.shape = call.dst.shape ∧
      (∀ q, InBox call.dst.size q → e.result.elem (toGlobal call.dst.range q) =
        f (call.order (full.1.at (unflatten (viewShape m call.dst.size) (flatten call.dst.size q)))
          (other.1.at (unflatten (viewShape m call.dst.size) (flatten call.dst.size q))))) ∧
      ∀ p, ¬InRanges call.dst.range p → e.result.elem p = dstElem p := by
  rw [emit]
  cases horder : call.fullFirst with
  | true =>
    obtain ⟨r, hr, hshape, hin, hout⟩ := emitOp_spec f (call.dst.tensor dstElem) hviews hdims
      (by simpa using ⟨hfull, hother⟩) hdst hred
    refine ⟨_, hr, rfl, by simp, by simp [fullView, horder], hshape, fun q hq => ?_, hout⟩
    rw [order, if_pos horder]
    exact hin q hq
  | false =>
    rw [getBroadcastDim_comm] at hdims
    obtain ⟨r, hr, hshape, hin, hout⟩ := emitOp_spec f (call.dst.tensor dstElem)
      (fun h => hviews h.symm) hdims (by simpa using ⟨hother, hfull⟩) hdst hred
    refine ⟨_, hr, rfl, by simp, by simp [fullView, horder], hshape, fun q hq => ?_, hout⟩
    rw [order, horder]
    exact hin q hq

theorem of_emit {e : EmittedOp V} (h : call.emit f full other m dstElem = some e) :
    ¬(full.2 = none ∧ other.2 = none) ∧
      ∃ dims, getBroadcastDim (shapeOf full.2) (shapeOf other.2) = some dims ∧
        full.1.Fits dims (viewShape m call.dst.size) ∧
        other.1.Fits dims (viewShape m call.dst.size) := by
  rw [emit] at h
  cases horder : call.fullFirst with
  | true =>
    rw [horder] at h
    obtain ⟨hviews, dims, hdims, hfits⟩ := of_emitOp h
    exact ⟨hviews, dims, hdims, hfits _ List.mem_cons_self, hfits _ (by simp)⟩
  | false =>
    rw [horder] at h
    obtain ⟨hviews, dims, hdims, hfits⟩ := of_emitOp h
    rw [getBroadcastDim_comm] at hdims
    exact ⟨fun h => hviews h.symm, dims, hdims, hfits _ (by simp), hfits _ List.mem_cons_self⟩

end Order

end BinaryCall

end TileLangNpuir.ApiMemref
