import TileLangNpuir.DevTensor.VectorRegion

/-!
# Ops that work on whole buffers

`VselectCodegen`, `VbrcCodegen`, `VcastCodegen`, `VcumsumCodegen`, `VsortCodegen` and
`VsigmoidCodegen` of `src/target/codegen_npuir_dev.cc`. The op objects carry the regions of their
operands; of these only the source region of a broadcast and the destination region of a select
are looked at, and everything else is the tensor of the whole buffer. `RegionCall.respects_iff`
says for which calls that comes to the regions.
-/

namespace TileLangNpuir.DevTensor

open RowMajor

variable {τ V : Type}

/-! ## Values -/

inductive RoundMode : Type where
  | round
  | rint
  | floor
  | ceil
  | trunc
  | odd
  deriving DecidableEq

/-- What the HIVM ops compute on elements. -/
structure Hivm (V : Type) : Type where
  zero : V
  one : V
  sub : V → V → V
  exp : V → V
  add : V → V → V
  div : V → V → V
  cast : RoundMode → V → V
  truthy : V → Bool
  /-- the value and the index at a place of the sorted line, descending or not -/
  sortLine : Bool → List V → ℕ → V × V

namespace Hivm

variable (H : Hivm V)

def unary (g : V → V) : List V → V
  | [x] => g x
  | _ => H.zero

def binary (g : V → V → V) : List V → V
  | [x, y] => g x y
  | _ => H.zero

def select : List V → V
  | [c, x, y] => if H.truthy c then x else y
  | _ => H.zero

def sigmoid (x : V) : V := H.div H.one (H.add (H.exp (H.sub H.zero x)) H.one)

/-- The sum of the first values up to a place. -/
def prefixSum (x : ℕ → V) : ℕ → V
  | 0 => x 0
  | n + 1 => H.add (prefixSum x n) (x (n + 1))

/-- The sums along one dimension. -/
def cumsumAlong (d : ℕ) (x : List ℤ → V) (p : List ℤ) : V :=
  H.prefixSum (fun i => x (p.set d i)) (p.getD d 0).toNat

def cumsum (cumDims : List ℕ) (x : List ℤ → V) : List ℤ → V :=
  cumDims.foldl (fun x d => H.cumsumAlong d x) x

/-- The line through a point, sorted. -/
def sortAlong (descending : Bool) (axis n : ℕ) (x : List ℤ → V) (p : List ℤ) : V × V :=
  H.sortLine descending ((List.range n).map fun i => x (p.set axis (i : ℕ))) (p.getD axis 0).toNat

end Hivm

/-- An axis counted from the end where it is negative. -/
def axisIndex (rank : ℕ) (axis : ℤ) : ℕ := (if axis < 0 then rank + axis else axis).toNat

/-- The extent of a dimension. -/
def extentAt (shape : List ℤ) (d : ℕ) : ℕ := (shape.getD d 1).toNat

/-! ## Generators -/

/-- `VbrcCodegen`. -/
def vbrcCodegen (H : Hivm V) (src : Source V) (dst : Tensor V) : Option (Tensor V) :=
  match src with
  | .scalar x => hivmOp (H.unary id) [.scalar x] dst.shape []
  | .region t range => do
    let slice ← genExtractSliceFromRegion t range
    let dims ← getBroadcastDim slice.shape dst.shape
    hivmOp (H.unary id) [.tensor slice] dst.shape dims

/-- `VcastCodegen`. -/
def vcastCodegen (H : Hivm V) (mode : RoundMode) (src dst : Tensor V) : Option (Tensor V) := do
  let dims ← getBroadcastDim src.shape dst.shape
  hivmOp (H.unary (H.cast mode)) [.tensor src] dst.shape dims

/-- `VsigmoidCodegen`. -/
def vsigmoidCodegen (H : Hivm V) (src dst : Tensor V) : Option (Tensor V) := do
  let negated ← hivmOp (H.binary H.sub) [.scalar H.zero, .tensor src] dst.shape []
  let exped ← hivmOp (H.unary H.exp) [.tensor negated] dst.shape []
  let onePlus ← hivmOp (H.binary H.add) [.tensor exped, .scalar H.one] dst.shape []
  hivmOp (H.binary H.div) [.scalar H.one, .tensor onePlus] dst.shape []

/-- `VcumsumCodegen`. -/
def vcumsumCodegen (H : Hivm V) (cumDims : List ℕ) (reverse : Bool) (src dst : Tensor V) :
    Option (Tensor V) :=
  if reverse then none
  else if src.shape = dst.shape ∧ ∀ d ∈ cumDims, d < src.shape.length then
    some ⟨dst.shape, H.cumsum cumDims src.elem⟩
  else none

/-- `VsortCodegen`: the sorted values and their indices. -/
def vsortCodegen (H : Hivm V) (descending : Bool) (sortAxis : ℤ) (src dstValue dstIndex : Tensor V) :
    Option (Tensor V × Tensor V) :=
  let axis := axisIndex src.shape.length sortAxis
  if src.shape = dstValue.shape ∧ src.shape = dstIndex.shape ∧ axis < src.shape.length then
    let sorted := H.sortAlong descending axis (extentAt src.shape axis) src.elem
    some (⟨dstValue.shape, fun p => (sorted p).1⟩, ⟨dstIndex.shape, fun p => (sorted p).2⟩)
  else none

/-- `VselectCodegen`. -/
def vselectCodegen [DecidableEq τ] (T : Target τ V) (H : Hivm V) (cond src0 src1 : Tensor V)
    (dst : TypedTensor τ V) (dstR : List (ℤ × ℤ)) : Option (Tensor V) := do
  let dims ← getBroadcastDim src0.shape src0.shape
  let emitted ← emitVectorOp T H.select [.tensor cond, .tensor src0, .tensor src1] dims src0.shape
    dst dstR
  return emitted.result.tensor

/-! ## Calls -/

/-- A buffer and a region of it. -/
structure Region : Type where
  shape : List ℤ
  range : List (ℤ × ℤ)

namespace Region

variable (r : Region)

def size : List ℤ := extents r.range

def Whole : Prop := IsWhole r.shape r.range

instance : Decidable r.Whole := inferInstanceAs (Decidable (IsWhole _ _))

/-- The element at a point of the region. -/
def read (elem : List ℤ → V) (q : List ℤ) : V := elem (toGlobal r.range q)

def tensor (elem : List ℤ → V) : Tensor V := ⟨r.shape, elem⟩

variable {r} {q : List ℤ}

theorem Whole.size_eq (h : r.Whole) : r.size = r.shape := h.1.symm

theorem Whole.toGlobal_eq (h : r.Whole) (hlen : q.length = r.size.length) :
    toGlobal r.range q = q :=
  toGlobal_of_isWhole h (h.size_eq ▸ hlen)

theorem Whole.read_eq (h : r.Whole) (elem : List ℤ → V) (hlen : q.length = r.size.length) :
    r.read elem q = elem q := by
  rw [read, h.toGlobal_eq hlen]

theorem eq_of_toGlobal_eq {p : List ℤ} (hp : InBox r.size p) (hq : InBox r.size q)
    (h : toGlobal r.range p = toGlobal r.range q) : p = q := by
  rw [← toLocal_toGlobal hp, h, toLocal_toGlobal hq]

/-- The slice of a region. -/
theorem slice_spec (elem : List ℤ → V) (h : Within r.shape r.range) :
    ∃ s, genExtractSliceFromRegion (r.tensor elem) r.range = some s ∧ s.shape = r.size ∧
      ∀ d, Broadcasts r.size d → ∀ q, InBox d q →
        (Operand.tensor s).at q = r.read elem (clamp r.size q) := by
  obtain ⟨s, hs, hshape, helem⟩ := genExtractSliceFromRegion_spec (t := r.tensor elem) h
  exact ⟨s, hs, hshape, fun d hbc q hq => slice_at hshape helem hbc hq⟩

/-- The whole buffer as an operand. -/
theorem Whole.at_eq (h : r.Whole) (elem : List ℤ → V) {d : List ℤ} (hbc : Broadcasts r.size d)
    (hq : InBox d q) : (Operand.tensor (r.tensor elem)).at q = r.read elem (clamp r.size q) := by
  refine slice_at (s := r.tensor elem) (t := r.tensor elem) h.size_eq.symm (fun q hq => ?_) hbc hq
  exact (h.read_eq elem (List.Forall₂.length_eq hq).symm).symm

end Region

/-- A call with its operands. -/
inductive RegionCall : Type where
  | fill (dst : Region)
  | brc (src dst : Region)
  | cast (mode : RoundMode) (src dst : Region)
  | select (cond src0 src1 dst : Region)
  | sigmoid (src dst : Region)
  | cumsum (cumDims : List ℕ) (reverse : Bool) (src dst : Region)
  | sort (descending : Bool) (sortAxis : ℤ) (src dstValue dstIndex : Region)

namespace RegionCall

def srcs : RegionCall → List Region
  | fill _ => []
  | brc src _ | cast _ src _ | sigmoid src _ | cumsum _ _ src _ | sort _ _ src _ _ => [src]
  | select cond src0 src1 _ => [cond, src0, src1]

def dsts : RegionCall → List Region
  | fill dst | brc _ dst | cast _ _ dst | select _ _ _ dst | sigmoid _ dst | cumsum _ _ _ dst =>
    [dst]
  | sort _ _ _ dstValue dstIndex => [dstValue, dstIndex]

/-- The extents are those the op is defined for. -/
def SizesFit : RegionCall → Prop
  | fill _ => True
  | brc src dst | cast _ src dst => Broadcasts src.size dst.size
  | select cond src0 src1 dst =>
    cond.size = src0.size ∧ src1.size = src0.size ∧ backbone src0.size = backbone dst.size
  | sigmoid src dst => src.size = dst.size
  | cumsum cumDims _ src dst => src.size = dst.size ∧ ∀ d ∈ cumDims, d < src.size.length
  | sort _ sortAxis src dstValue dstIndex =>
    src.size = dstValue.size ∧ src.size = dstIndex.size ∧
      axisIndex src.size.length sortAxis < src.size.length

/-- In-bounds regions of such extents. -/
structure WellFormed (call : RegionCall) : Prop where
  within : ∀ r ∈ call.srcs ++ call.dsts, Within r.shape r.range
  fit : call.SizesFit

/-- A point counted from the other end in some dimensions. -/
def mirror (size : List ℤ) (dims : List ℕ) (p : List ℤ) : List ℤ :=
  dims.foldl (fun p d => p.set d (size.getD d 1 - 1 - p.getD d 0)) p

/-- The op applied to the source regions, for each of the destinations. -/
def value (H : Hivm V) (elem : ℕ → List ℤ → V) (k : ℕ) (q : List ℤ) : RegionCall → V
  | fill _ => elem 0 []
  | brc src _ => src.read (elem 0) (clamp src.size q)
  | cast mode src _ => H.cast mode (src.read (elem 0) (clamp src.size q))
  | select cond src0 src1 dst =>
    let q := unflatten src0.size (flatten dst.size q)
    H.select [cond.read (elem 0) q, src0.read (elem 1) q, src1.read (elem 2) q]
  | sigmoid src _ => H.sigmoid (src.read (elem 0) q)
  | cumsum cumDims reverse src _ =>
    if reverse then
      H.cumsum cumDims (fun p => src.read (elem 0) (mirror src.size cumDims p))
        (mirror src.size cumDims q)
    else H.cumsum cumDims (src.read (elem 0)) q
  | sort descending sortAxis src _ _ =>
    let axis := axisIndex src.size.length sortAxis
    let sorted := H.sortAlong descending axis (extentAt src.size axis) (src.read (elem 0)) q
    if k = 0 then sorted.1 else sorted.2

variable [DecidableEq τ]

/-- The tensors that are bound to the destinations. -/
def codegen (T : Target τ V) (H : Hivm V) (dstTy : τ) (elem dstElem : ℕ → List ℤ → V) :
    RegionCall → Option (List (Tensor V))
  | fill dst => do
    return [← vbrcCodegen H (.scalar (elem 0 [])) (dst.tensor (dstElem 0))]
  | brc src dst => do
    return [← vbrcCodegen H (.region (src.tensor (elem 0)) src.range) (dst.tensor (dstElem 0))]
  | cast mode src dst => do
    return [← vcastCodegen H mode (src.tensor (elem 0)) (dst.tensor (dstElem 0))]
  | select cond src0 src1 dst => do
    return [← vselectCodegen T H (cond.tensor (elem 0)) (src0.tensor (elem 1))
      (src1.tensor (elem 2)) ⟨dstTy, dst.tensor (dstElem 0)⟩ dst.range]
  | sigmoid src dst => do
    return [← vsigmoidCodegen H (src.tensor (elem 0)) (dst.tensor (dstElem 0))]
  | cumsum cumDims reverse src dst => do
    return [← vcumsumCodegen H cumDims reverse (src.tensor (elem 0)) (dst.tensor (dstElem 0))]
  | sort descending sortAxis src dstValue dstIndex => do
    let (value, index) ← vsortCodegen H descending sortAxis (src.tensor (elem 0))
      (dstValue.tensor (dstElem 0)) (dstIndex.tensor (dstElem 1))
    return [value, index]

/-- The elements of the region are the given values, and the rest is as it was. -/
structure Replaces (dst : Region) (old : List ℤ → V) (value : List ℤ → V) (res : Tensor V) :
    Prop where
  shape : res.shape = dst.shape
  inside : ∀ q, InBox dst.size q → res.elem (toGlobal dst.range q) = value q
  outside : ∀ p, InBox dst.shape p → ¬InRanges dst.range p → res.elem p = old p

/-- Whatever the buffers hold, each destination gets the op applied to the source regions in its
region. -/
def Respects (H : Hivm V) (vcast : τ → τ → V → V) (dstTy : τ) (call : RegionCall) : Prop :=
  ∀ (elem dstElem : ℕ → List ℤ → V) (empty : ℕ → List ℤ → V),
    ∃ results, call.codegen ⟨vcast, empty⟩ H dstTy elem dstElem = some results ∧
      ∀ k dst, call.dsts[k]? = some dst → ∃ res, results[k]? = some res ∧
        Replaces dst (dstElem k) (fun q => call.value H elem k q) res

/-- The buffers are taken as a whole, where the generator takes them so. -/
def WholeBuffers : RegionCall → Prop
  | fill dst | brc _ dst => dst.Whole
  | cast _ src dst | sigmoid src dst => src.Whole ∧ dst.Whole
  | cumsum _ reverse src dst => reverse = false ∧ src.Whole ∧ dst.Whole
  | sort _ _ src dstValue dstIndex => src.Whole ∧ dstValue.Whole ∧ dstIndex.Whole
  | select cond src0 src1 dst =>
    cond.Whole ∧ src0.Whole ∧ src1.Whole ∧
      if dst.Whole then src0.size = dst.size else reshapes src0.size dst.size = true

/-! ## Destinations -/

section Destinations

variable {H : Hivm V} {vcast : τ → τ → V → V} {dstTy : τ} {call : RegionCall}

theorem replaces_of_whole {dst : Region} {old value elem : List ℤ → V} (h : dst.Whole)
    (helem : ∀ q, InBox dst.size q → elem q = value q) :
    Replaces dst old value ⟨dst.shape, elem⟩ := by
  refine ⟨rfl, fun q hq => ?_, fun p hp hnot => absurd (inRanges_of_isWhole h hp) hnot⟩
  rw [h.toGlobal_eq (List.Forall₂.length_eq hq).symm]
  exact helem q hq

theorem forall_single_iff {dst : Region} {res : Tensor V} {P : ℕ → Region → Tensor V → Prop} :
    (∀ k d, [dst][k]? = some d → ∃ r, [res][k]? = some r ∧ P k d r) ↔ P 0 dst res := by
  constructor
  · intro h
    obtain ⟨r, hr, hP⟩ := h 0 dst rfl
    obtain rfl := Option.some.inj hr
    exact hP
  · intro hP k d hk
    obtain ⟨rfl, rfl⟩ : k = 0 ∧ d = dst := by
      cases k with
      | zero => exact ⟨rfl, (Option.some.inj hk).symm⟩
      | succ k => cases hk
    exact ⟨res, rfl, hP⟩

/-- The old contents of the destinations are not used. -/
def Overwrites : RegionCall → Prop
  | select .. => False
  | _ => True

theorem codegen_congr (h : call.Overwrites) {T : Target τ V} {elem dstElem : ℕ → List ℤ → V}
    (dstElem' : ℕ → List ℤ → V) :
    call.codegen T H dstTy elem dstElem = call.codegen T H dstTy elem dstElem' := by
  cases call with
  | select => exact absurd h id
  | fill | brc | cast | sigmoid | cumsum | sort => rfl

/-- A destination that is overwritten as a whole has to be the whole. -/
theorem whole_of_respects [Nontrivial V] (hover : call.Overwrites) (hwf : call.WellFormed)
    (h : call.Respects H vcast dstTy) : ∀ dst ∈ call.dsts, dst.Whole := by
  intro dst hmem
  obtain ⟨k, hk⟩ := List.getElem?_of_mem hmem
  by_contra hnot
  obtain ⟨p, hp, hout⟩ :=
    exists_not_inRanges (hwf.within dst (List.mem_append_right _ hmem)) hnot
  obtain ⟨x, y, hxy⟩ := exists_pair_ne V
  -- the same tensor would have to keep two different contents
  obtain ⟨results, hres, hall⟩ := h (fun _ _ => x) (fun _ _ => x) fun _ _ => x
  obtain ⟨results', hres', hall'⟩ := h (fun _ _ => x) (fun _ _ => y) fun _ _ => x
  rw [codegen_congr hover fun _ _ => y, hres'] at hres
  obtain rfl := Option.some.inj hres
  obtain ⟨res, hr, hrep⟩ := hall k dst hk
  obtain ⟨res', hr', hrep'⟩ := hall' k dst hk
  obtain rfl := Option.some.inj (hr.symm.trans hr')
  exact hxy ((hrep.outside p hp hout).symm.trans (hrep'.outside p hp hout))

end Destinations

/-! ## Calls on whole buffers -/

section Sufficient

variable {H : Hivm V} {vcast : τ → τ → V → V} {dstTy : τ} {src dst : Region}

theorem hivmOp_of_fits {f : List V → V} {ins : List (Operand V)} {out : List ℤ} {dims : List ℕ}
    (h : ∀ o ∈ ins, o.Fits dims out) :
    hivmOp f ins out dims = some ⟨out, fun p => f (ins.map (Operand.at p))⟩ :=
  if_pos h

/-- The dimensions to broadcast make a source fit. -/
theorem fitsShape_getBroadcastDim {s d : List ℤ} (h : Broadcasts s d) :
    ∃ dims, getBroadcastDim s d = some dims ∧ FitsShape dims s d := by
  have hdim : ∀ j < s.length, oneSided s d j = true ∨ s[j]? = d[j]? := by
    intro j hj
    have := h.2 j (h.1 ▸ hj)
    rw [oneSided_iff]
    grind
  obtain ⟨dims, hdims, hmem⟩ := getBroadcastDim_spec h.1 hdim
  exact ⟨dims, hdims,
    ((fitsShape_both_iff h (Broadcasts.refl _) hmem).mpr fun _ _ => .inr rfl).1⟩

theorem fill_respects (hdst : dst.Whole) : (fill dst).Respects H vcast dstTy := by
  intro elem dstElem empty
  rw [codegen, vbrcCodegen, hivmOp_of_fits (by simp [Operand.Fits])]
  exact ⟨_, rfl, forall_single_iff.mpr (replaces_of_whole hdst fun q _ => rfl)⟩

theorem brc_respects (hsrc : Within src.shape src.range) (hfit : Broadcasts src.size dst.size)
    (hdst : dst.Whole) : (brc src dst).Respects H vcast dstTy := by
  intro elem dstElem empty
  obtain ⟨s, hs, hshape, hat⟩ := Region.slice_spec (elem 0) hsrc
  obtain ⟨dims, hdims, hfits⟩ := fitsShape_getBroadcastDim hfit
  rw [hdst.size_eq, ← hshape] at hdims hfits
  rw [codegen, vbrcCodegen]
  simp only [hs, Option.bind_eq_bind, Option.bind_some]
  simp only [Region.tensor, hdims, Option.bind_some]
  rw [hivmOp_of_fits (by simpa [Operand.Fits] using hfits)]
  refine ⟨_, rfl, forall_single_iff.mpr (replaces_of_whole hdst fun q hq => ?_)⟩
  exact hat _ hfit q hq

theorem cast_respects {mode : RoundMode} (hfit : Broadcasts src.size dst.size) (hsrc : src.Whole)
    (hdst : dst.Whole) : (cast mode src dst).Respects H vcast dstTy := by
  intro elem dstElem empty
  obtain ⟨dims, hdims, hfits⟩ := fitsShape_getBroadcastDim hfit
  rw [hsrc.size_eq, hdst.size_eq] at hdims hfits
  rw [codegen, vcastCodegen]
  simp only [Region.tensor, hdims, Option.bind_eq_bind, Option.bind_some]
  rw [hivmOp_of_fits (by simpa [Operand.Fits] using hfits)]
  refine ⟨_, rfl, forall_single_iff.mpr (replaces_of_whole hdst fun q hq => ?_)⟩
  exact congrArg (H.cast mode) (hsrc.at_eq (elem 0) hfit hq)

theorem sigmoid_respects (hfit : src.size = dst.size) (hsrc : src.Whole) (hdst : dst.Whole) :
    (sigmoid src dst).Respects H vcast dstTy := by
  intro elem dstElem empty
  have hshape : src.shape = dst.shape := by rw [← hsrc.size_eq, hfit, hdst.size_eq]
  have hself : FitsShape [] dst.shape dst.shape := fitsShape_nil.mpr rfl
  have hat : ∀ q, InBox dst.size q →
      (Operand.tensor (src.tensor (elem 0))).at q = src.read (elem 0) q := by
    intro q hq
    rw [hsrc.at_eq (elem 0) (hfit ▸ Broadcasts.refl _) hq, clamp_of_inBox (hfit ▸ hq)]
  rw [codegen, vsigmoidCodegen]
  simp only [hivmOp, Operand.Fits, Region.tensor, hshape, hself, List.forall_mem_cons, true_and,
    List.not_mem_nil, false_implies, implies_true, if_true, Option.bind_eq_bind, Option.bind_some]
  refine ⟨_, rfl, forall_single_iff.mpr (replaces_of_whole hdst fun q hq => ?_)⟩
  have hclamp : clamp dst.shape q = q := clamp_of_inBox (hdst.size_eq ▸ hq)
  rw [value, ← hat q hq]
  simp only [List.map_cons, List.map_nil, Operand.at, hclamp, Region.tensor, hshape]
  rfl

/-- Sums along dimensions only look at points of one rank. -/
theorem cumsum_congr {x y : List ℤ → V} {n : ℕ} (h : ∀ p, p.length = n → x p = y p)
    (cumDims : List ℕ) : ∀ p, p.length = n → H.cumsum cumDims x p = H.cumsum cumDims y p := by
  induction cumDims generalizing x y with
  | nil => exact h
  | cons d ds ih =>
    refine ih fun p hp => ?_
    have hline : (fun i : ℕ => x (p.set d i)) = fun i : ℕ => y (p.set d i) := by
      funext i
      exact h _ (by rw [List.length_set, hp])
    change H.prefixSum _ _ = H.prefixSum _ _
    rw [hline]

theorem cumsum_respects {cumDims : List ℕ} (hfit : src.size = dst.size)
    (hdims : ∀ d ∈ cumDims, d < src.size.length) (hsrc : src.Whole) (hdst : dst.Whole) :
    (cumsum cumDims false src dst).Respects H vcast dstTy := by
  intro elem dstElem empty
  have hshape : src.shape = dst.shape := by rw [← hsrc.size_eq, hfit, hdst.size_eq]
  rw [hsrc.size_eq] at hdims
  rw [codegen, vcumsumCodegen, if_neg Bool.false_ne_true, if_pos ⟨hshape, hdims⟩]
  refine ⟨_, rfl, forall_single_iff.mpr (replaces_of_whole hdst fun q hq => ?_)⟩
  refine cumsum_congr (n := src.size.length) (fun p hp => (hsrc.read_eq _ hp).symm) cumDims q ?_
  rw [hfit]
  exact (List.Forall₂.length_eq hq).symm

theorem sort_respects {descending : Bool} {sortAxis : ℤ} {dstIndex : Region}
    (hfit : src.size = dst.size) (hfit' : src.size = dstIndex.size)
    (haxis : axisIndex src.size.length sortAxis < src.size.length) (hsrc : src.Whole)
    (hdst : dst.Whole) (hdst' : dstIndex.Whole) :
    (sort descending sortAxis src dst dstIndex).Respects H vcast dstTy := by
  intro elem dstElem empty
  have hshape : src.shape = dst.shape := by rw [← hsrc.size_eq, hfit, hdst.size_eq]
  have hshape' : src.shape = dstIndex.shape := by rw [← hsrc.size_eq, hfit', hdst'.size_eq]
  have hsorted : ∀ q axis n, q.length = src.size.length →
      H.sortAlong descending axis n (elem 0) q =
        H.sortAlong descending axis n (src.read (elem 0)) q := by
    intro q axis n hq
    rw [Hivm.sortAlong, Hivm.sortAlong]
    congr 1
    refine List.map_congr_left fun i _ => (hsrc.read_eq _ ?_).symm
    rw [List.length_set, hq]
  rw [hsrc.size_eq] at haxis
  have hcode : vsortCodegen H descending sortAxis (src.tensor (elem 0)) (dst.tensor (dstElem 0))
      (dstIndex.tensor (dstElem 1)) = some _ := if_pos ⟨hshape, hshape', haxis⟩
  rw [codegen, hcode]
  refine ⟨_, rfl, fun k d hk => ?_⟩
  match k with
  | 0 =>
    obtain rfl := Option.some.inj hk
    refine ⟨_, rfl, replaces_of_whole hdst fun q hq => ?_⟩
    rw [value, if_pos rfl, hsrc.size_eq]
    exact congrArg Prod.fst (hsorted q _ _ (hfit ▸ (List.Forall₂.length_eq hq).symm))
  | 1 =>
    obtain rfl := Option.some.inj hk
    refine ⟨_, rfl, replaces_of_whole hdst' fun q hq => ?_⟩
    rw [value, if_neg Nat.one_ne_zero, hsrc.size_eq]
    exact congrArg Prod.snd (hsorted q _ _ (hfit' ▸ (List.Forall₂.length_eq hq).symm))
  | k + 2 => cases hk

theorem getBroadcastDim_self (s : List ℤ) : getBroadcastDim s s = some [] := by
  have hdim : ∀ j, oneSided s s j = false := fun j => by simp [oneSided]
  rw [getBroadcastDim]
  split
  · rfl
  · rw [if_pos ⟨rfl, fun _ _ => .inr rfl⟩]
    simp [hdim]

theorem vselectCodegen_eq {T : Target τ V} {cond src0 src1 : Tensor V} {dst : TypedTensor τ V}
    {dstR : List (ℤ × ℤ)} :
    vselectCodegen T H cond src0 src1 dst dstR =
      (emitVectorOp T H.select [.tensor cond, .tensor src0, .tensor src1] [] src0.shape dst
        dstR).map fun e => e.result.tensor := by
  rw [vselectCodegen, getBroadcastDim_self, Option.bind_eq_bind, Option.bind_some]
  cases emitVectorOp T H.select [.tensor cond, .tensor src0, .tensor src1] [] src0.shape dst dstR
    <;> rfl

/-- The operands of a select on whole buffers of one shape. -/
theorem select_at {cond src0 src1 : Region} (hcond : cond.size = src0.size)
    (hsrc1 : src1.size = src0.size) (hw : cond.Whole) (hw0 : src0.Whole) (hw1 : src1.Whole)
    (elem : ℕ → List ℤ → V) {q : List ℤ} (hq : InBox src0.size q) :
    [Operand.tensor (cond.tensor (elem 0)), .tensor (src0.tensor (elem 1)),
        .tensor (src1.tensor (elem 2))].map (Operand.at q) =
      [cond.read (elem 0) q, src0.read (elem 1) q, src1.read (elem 2) q] := by
  have hat : ∀ (r : Region) (x : List ℤ → V), r.Whole → r.size = src0.size →
      (Operand.tensor (r.tensor x)).at q = r.read x q := by
    intro r x hr hsize
    rw [hr.at_eq x (hsize ▸ Broadcasts.refl _) hq, clamp_of_inBox (hsize ▸ hq)]
  simp only [List.map_cons, List.map_nil, hat cond _ hw hcond, hat src0 _ hw0 rfl,
    hat src1 _ hw1 hsrc1]

theorem select_respects {cond src0 src1 : Region} (hdst : Within dst.shape dst.range)
    (hcond : cond.size = src0.size) (hsrc1 : src1.size = src0.size)
    (hsrc0 : ∀ n ∈ src0.size, 0 < n) (hw : cond.Whole) (hw0 : src0.Whole) (hw1 : src1.Whole)
    (hsize : if dst.Whole then src0.size = dst.size else reshapes src0.size dst.size = true) :
    (select cond src0 src1 dst).Respects H vcast dstTy := by
  intro elem dstElem empty
  have hfits : ∀ o ∈ [Operand.tensor (cond.tensor (elem 0)), .tensor (src0.tensor (elem 1)),
      .tensor (src1.tensor (elem 2))], o.Fits [] src0.size := by
    intro o ho
    simp only [List.mem_cons, List.not_mem_nil, or_false] at ho
    rcases ho with rfl | rfl | rfl
    · exact fitsShape_nil.mpr (hw.size_eq.symm.trans hcond)
    · exact fitsShape_nil.mpr hw0.size_eq.symm
    · exact fitsShape_nil.mpr (hw1.size_eq.symm.trans hsrc1)
  rw [codegen, vselectCodegen_eq]
  by_cases hwhole : dst.Whole
  · rw [if_pos hwhole] at hsize
    rw [hsize] at hfits
    obtain ⟨e, he, -, -, hres, hin, hout⟩ := emitVectorOp_spec ⟨vcast, empty⟩ H.select
      ⟨dstTy, dst.tensor (dstElem 0)⟩ hdst hfits (.inr hwhole)
    refine ⟨[e.result.tensor], by rw [he]; rfl, forall_single_iff.mpr ?_⟩
    refine ⟨hres, fun q hq => ?_, hout⟩
    rw [hin q hq, value, hsize, unflatten_flatten hq,
      select_at hcond hsrc1 hw hw0 hw1 elem (hsize ▸ hq)]
  · rw [if_neg hwhole] at hsize
    obtain ⟨e, he, -, -, hres, hin, hout⟩ := emitVectorOp_part ⟨vcast, empty⟩ H.select
      ⟨dstTy, dst.tensor (dstElem 0)⟩ hdst hwhole hfits hsize
    rw [show src0.size = (src0.tensor (elem 1)).shape from hw0.size_eq] at he
    refine ⟨[e.result.tensor], by rw [he]; rfl, forall_single_iff.mpr ?_⟩
    refine ⟨hres, fun q hq => ?_, fun p _ => hout p⟩
    obtain ⟨h0, hlt⟩ := flatten_bounds hq
    rw [← prod_of_reshapes hsize] at hlt
    rw [hin q hq]
    exact congrArg H.select
      (select_at hcond hsrc1 hw hw0 hw1 elem (inBox_unflatten hsrc0 h0 hlt))

end Sufficient

/-! ## What is needed -/

section Necessary

variable {H : Hivm V} {vcast : τ → τ → V → V} {dstTy : τ} {src dst : Region}

theorem inBox_of_broadcasts {s d p : List ℤ} (h : Broadcasts s d) (hpos : ∀ n ∈ d, 0 < n)
    (hp : InBox s p) : InBox d p := by
  replace h := h.forall₂
  induction h generalizing p with
  | nil => exact hp
  | @cons n m ns ms hn _ ih =>
    obtain ⟨x, xs, hx, hxs, rfl⟩ := List.forall₂_cons_left_iff.mp hp
    have hm := hpos m List.mem_cons_self
    exact .cons ⟨hx.1, by omega⟩ (ih (fun k hk => hpos k (List.mem_cons_of_mem _ hk)) hxs)

/-- A cast of a part of its source reads elements outside that part. -/
theorem cast_src_whole {mode : RoundMode} (hmode : ∃ a b, H.cast mode a ≠ H.cast mode b)
    (hsrc : Within src.shape src.range) (hin : Within dst.shape dst.range)
    (hfit : Broadcasts src.size dst.size) (hdst : dst.Whole)
    (h : (cast mode src dst).Respects H vcast dstTy) : src.Whole := by
  by_contra hnot
  obtain ⟨a, b, hab⟩ := hmode
  obtain ⟨p, hp, hout⟩ := exists_not_inRanges hsrc hnot
  -- the source holds `a` at a point outside the region and `b` elsewhere
  obtain ⟨results, hres, hall⟩ :=
    h (fun _ x => if x = p then a else b) (fun _ _ => a) fun _ _ => a
  obtain ⟨res, hcode, hret⟩ := Option.bind_eq_some_iff.mp hres
  obtain rfl := Option.some.inj hret
  obtain ⟨dims, hdims, hop⟩ := Option.bind_eq_some_iff.mp hcode
  obtain ⟨hfits, rfl⟩ := fits_of_hivmOp hop
  have hbc : Broadcasts src.shape dst.shape :=
    (hfits _ List.mem_cons_self : FitsShape _ _ _).broadcasts
  have hbox : InBox dst.size p :=
    hdst.size_eq ▸ inBox_of_broadcasts hbc hin.shape_pos hp
  have hval := (forall_single_iff.mp hall).inside p hbox
  have hne : toGlobal src.range (clamp src.size p) ≠ p := by
    intro heq
    exact hout (heq ▸ inRanges_toGlobal (inBox_clamp hfit hbox))
  rw [hdst.toGlobal_eq (List.Forall₂.length_eq hbox).symm, value, Region.read, if_neg hne] at hval
  change H.cast mode (if clamp src.shape p = p then a else b) = _ at hval
  rw [clamp_of_inBox hp, if_pos rfl] at hval
  exact hab hval

theorem whole_of_shape_eq (hsrc : Within src.shape src.range) (hfit : src.size = dst.size)
    (hdst : dst.Whole) (hshape : src.shape = dst.shape) : src.Whole :=
  hsrc.isWhole (hshape.trans (hdst.size_eq.symm.trans hfit.symm))

theorem sigmoid_src_whole [Nonempty V] (hsrc : Within src.shape src.range)
    (hfit : src.size = dst.size) (hdst : dst.Whole)
    (h : (sigmoid src dst).Respects H vcast dstTy) : src.Whole := by
  obtain ⟨x⟩ := ‹Nonempty V›
  obtain ⟨results, hres, -⟩ := h (fun _ _ => x) (fun _ _ => x) fun _ _ => x
  obtain ⟨res, hcode, -⟩ := Option.bind_eq_some_iff.mp hres
  obtain ⟨negated, hsub, -⟩ := Option.bind_eq_some_iff.mp hcode
  obtain ⟨hfits, -⟩ := fits_of_hivmOp hsub
  exact whole_of_shape_eq hsrc hfit hdst
    (fitsShape_nil.mp (hfits _ (List.mem_cons_of_mem _ List.mem_cons_self)))

theorem cumsum_src_whole [Nonempty V] {cumDims : List ℕ} {reverse : Bool}
    (hsrc : Within src.shape src.range) (hfit : src.size = dst.size) (hdst : dst.Whole)
    (h : (cumsum cumDims reverse src dst).Respects H vcast dstTy) :
    reverse = false ∧ src.Whole := by
  obtain ⟨x⟩ := ‹Nonempty V›
  obtain ⟨results, hres, -⟩ := h (fun _ _ => x) (fun _ _ => x) fun _ _ => x
  obtain ⟨res, hcode, -⟩ := Option.bind_eq_some_iff.mp hres
  rw [vcumsumCodegen] at hcode
  split at hcode
  · cases hcode
  case isFalse hrev =>
    split at hcode
    case isTrue hshape =>
      exact ⟨Bool.not_eq_true _ ▸ hrev, whole_of_shape_eq hsrc hfit hdst hshape.1⟩
    case isFalse => cases hcode

theorem sort_src_whole [Nonempty V] {descending : Bool} {sortAxis : ℤ} {dstIndex : Region}
    (hsrc : Within src.shape src.range) (hfit : src.size = dst.size) (hdst : dst.Whole)
    (h : (sort descending sortAxis src dst dstIndex).Respects H vcast dstTy) : src.Whole := by
  obtain ⟨x⟩ := ‹Nonempty V›
  obtain ⟨results, hres, -⟩ := h (fun _ _ => x) (fun _ _ => x) fun _ _ => x
  obtain ⟨res, hcode, -⟩ := Option.bind_eq_some_iff.mp hres
  simp only [vsortCodegen] at hcode
  split at hcode
  case isTrue hshape => exact whole_of_shape_eq hsrc hfit hdst hshape.1
  case isFalse => cases hcode

/-- The operands of a select have the shape of its output, and the number of elements then says
that they are whole. -/
theorem select_whole [Nonempty V] {cond src0 src1 : Region}
    (hwf : (select cond src0 src1 dst).WellFormed)
    (h : (select cond src0 src1 dst).Respects H vcast dstTy) :
    (select cond src0 src1 dst).WholeBuffers := by
  obtain ⟨x⟩ := ‹Nonempty V›
  obtain ⟨hcond, hsrc1, hback⟩ := hwf.fit
  have hprod : src0.size.prod = dst.size.prod := by
    rw [← prod_backbone, hback, prod_backbone]
  obtain ⟨results, hres, -⟩ := h (fun _ _ => x) (fun _ _ => x) fun _ _ => x
  obtain ⟨res, hcode, -⟩ := Option.bind_eq_some_iff.mp hres
  rw [vselectCodegen_eq] at hcode
  obtain ⟨e, he, -⟩ := Option.map_eq_some_iff.mp hcode
  -- the shape of the output, and how many elements it has
  obtain ⟨out, hfits, hout, hsize⟩ : ∃ out, (∀ o ∈ [Operand.tensor (cond.tensor fun _ => x),
      .tensor (src0.tensor fun _ => x), .tensor (src1.tensor fun _ => x)], o.Fits [] out) ∧
      out.prod = dst.size.prod ∧
      if dst.Whole then out = dst.size else reshapes out dst.size = true := by
    by_cases hwhole : dst.Whole
    · rw [emitVectorOp_whole ⟨dstTy, dst.tensor fun _ => x⟩ hwhole] at he
      obtain ⟨r, hr, -⟩ := Option.map_eq_some_iff.mp he
      refine ⟨dst.shape, (fits_of_hivmOp hr).1, by rw [hwhole.size_eq], ?_⟩
      rw [if_pos hwhole, hwhole.size_eq]
    · obtain ⟨hfits, hreshapes, -⟩ := of_emitVectorOp_part he hwhole
      exact ⟨_, hfits, prod_of_reshapes hreshapes, by rwa [if_neg hwhole]⟩
  have hwhole : ∀ r ∈ [cond, src0, src1], r.size = src0.size → r.shape = out → r.Whole := by
    intro r hr hrsize hrshape
    refine (hwf.within r (List.mem_append_left _ hr)).isWhole ?_
    refine (hwf.within r (List.mem_append_left _ hr)).eq_extents_of_prod ?_
    change _ = r.size.prod
    rw [hrshape, hout, hrsize, hprod]
  have hshape : cond.shape = out ∧ src0.shape = out ∧ src1.shape = out := by
    simpa [Operand.Fits, fitsShape_nil, Region.tensor] using hfits
  have hw0 := hwhole src0 (by simp) rfl hshape.2.1
  refine ⟨hwhole cond (by simp) hcond hshape.1, hw0, hwhole src1 (by simp) hsrc1 hshape.2.2, ?_⟩
  rwa [hw0.size_eq, hshape.2.1]

end Necessary

/-- Integers as elements. -/
def intOps : Hivm ℤ where
  zero := 0
  one := 1
  sub x y := x - y
  exp x := 2 ^ x.toNat
  add x y := x + y
  div x y := x / y
  cast _ x := x
  truthy x := x ≠ 0
  sortLine descending line i :=
    let sorted := line.zipIdx.insertionSort fun a b => if descending then b.1 ≤ a.1 else a.1 ≤ b.1
    let entry := sorted.getD i (0, 0)
    (entry.1, entry.2)

end RegionCall

end TileLangNpuir.DevTensor
