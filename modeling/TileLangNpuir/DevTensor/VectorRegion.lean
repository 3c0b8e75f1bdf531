import TileLangNpuir.DevTensor.Vector

/-!
# What an elementwise op changes

`ComputesRegion` says that each element of the destination region is the op applied to the
elements of the sources at the same coordinates, and that nothing else changed. The output of the
emitted op has the shape of the destination region where the first source has it too, or where the
region is all of the destination; then every operand has to fit that shape (`emitVectorOp_spec`,
`fits_of_emitVectorOp`). A source region of one element goes wrong on the left when the buffer has
more elements than that.
-/

namespace TileLangNpuir.DevTensor

open RowMajor

variable {τ V : Type}

/-! ## Calls -/

/-- What a source gives for a point of the destination region. -/
def Source.valueAt (q : List ℤ) : Source V → V
  | scalar x => x
  | region t range => t.elem (toGlobal range (clamp (extents range) q))

/-- The region of the destination holds the op applied to the sources, and the rest is as it
was. -/
structure ComputesRegion (f : List V → V) (srcs : List (Source V)) (dst res : Tensor V)
    (dstR : List (ℤ × ℤ)) : Prop where
  shape : res.shape = dst.shape
  inside : ∀ q, InBox (extents dstR) q →
    res.elem (toGlobal dstR q) = f (srcs.map (Source.valueAt q))
  outside : ∀ p, InBox dst.shape p → ¬InRanges dstR p → res.elem p = dst.elem p

/-- The extents broadcast to those of the destination: each is the same or a one. -/
def Broadcasts (src dst : List ℤ) : Prop :=
  src.length = dst.length ∧ ∀ j < dst.length, src[j]? = dst[j]? ∨ src[j]? = some 1

instance (src dst : List ℤ) : Decidable (Broadcasts src dst) :=
  inferInstanceAs (Decidable (_ ∧ _))

/-- A source as it stands in the call. -/
inductive Arg : Type where
  | scalar
  | region (shape : List ℤ) (range : List (ℤ × ℤ))

/-- The source with its contents. -/
def Arg.source (elem : List ℤ → V) : Arg → Source V
  | scalar => .scalar (elem [])
  | region shape range => .region ⟨shape, elem⟩ range

/-- A region in bounds, with extents that broadcast. -/
def Arg.WellFormed (dst : List ℤ) : Arg → Prop
  | scalar => True
  | region shape range => Within shape range ∧ Broadcasts (extents range) dst

/-- A call of an elementwise op. -/
inductive VectorCall : Type where
  | unary (shape : List ℤ) (range : List (ℤ × ℤ))
  | binary (shape : List ℤ) (range : List (ℤ × ℤ)) (src1 : Arg)

/-- A second source that has the extents of the destination where the first does not. -/
def Arg.Completes (src dst : List ℤ) : Arg → Prop
  | scalar => False
  | region _ range => ¬AllOnes (extents range) ∧
      ∀ j < dst.length, src[j]? = dst[j]? ∨ (extents range)[j]? = dst[j]?

namespace VectorCall

def args : VectorCall → List Arg
  | unary shape range => [.region shape range]
  | binary shape range src1 => [.region shape range, src1]

def WellFormed (dst : List ℤ) (call : VectorCall) : Prop := ∀ arg ∈ call.args, arg.WellFormed dst

/-- The sources with their contents. -/
def sources (elem0 elem1 : List ℤ → V) : VectorCall → List (Source V)
  | unary shape range => [.region ⟨shape, elem0⟩ range]
  | binary shape range src1 => [.region ⟨shape, elem0⟩ range, src1.source elem1]

variable [DecidableEq τ]

/-- The code that is generated for a call. -/
def codegen (T : Target τ V) (f : List V → V) (elem0 elem1 : List ℤ → V) (dst : TypedTensor τ V)
    (dstR : List (ℤ × ℤ)) : VectorCall → Option (Emitted τ V)
  | unary shape range => unaryVecOpCodegen T f ⟨shape, elem0⟩ range dst dstR
  | binary shape range src1 =>
    createHIVMBinaryVectorOp T f (.region ⟨shape, elem0⟩ range) (src1.source elem1) dst dstR

/-- The generated op works on the regions: the first source has the extents of the destination, or
all of the destination is written and the sources together have them; and a first source of one
element is all of its buffer. -/
def Exact (dstShape : List ℤ) (dstR : List (ℤ × ℤ)) : VectorCall → Prop
  | unary _ range => extents range = extents dstR ∨ IsWhole dstShape dstR
  | binary shape range src1 =>
    dstR ≠ [] ∧ (AllOnes (extents range) → AllOnes shape) ∧
      (extents range = extents dstR ∨
        IsWhole dstShape dstR ∧ src1.Completes (extents range) (extents dstR))

end VectorCall

/-! ## Shapes -/

section Shapes

variable {e e' d p q : List ℤ} {dims : List ℕ}

theorem Broadcasts.forall₂ (h : Broadcasts e d) : List.Forall₂ (fun n m => n = m ∨ n = 1) e d := by
  obtain ⟨hlen, hdim⟩ := h
  refine List.forall₂_iff_get.mpr ⟨hlen, fun j h₁ h₂ => ?_⟩
  have := hdim j h₂
  rwa [List.getElem?_eq_getElem h₁, List.getElem?_eq_getElem h₂, Option.some_inj,
    Option.some_inj] at this

theorem broadcasts_of_forall₂ (h : List.Forall₂ (fun n m => n = m ∨ n = 1) e d) :
    Broadcasts e d := by
  obtain ⟨hlen, hget⟩ := List.forall₂_iff_get.mp h
  refine ⟨hlen, fun j hj => ?_⟩
  rw [List.getElem?_eq_getElem (hlen ▸ hj), List.getElem?_eq_getElem hj, Option.some_inj,
    Option.some_inj]
  exact hget j (hlen ▸ hj) hj

theorem Broadcasts.refl (d : List ℤ) : Broadcasts d d := ⟨rfl, fun _ _ => .inl rfl⟩

theorem FitsShape.broadcasts (h : FitsShape dims e d) : Broadcasts e d :=
  ⟨h.1, fun j hj => (h.2 j hj).imp_right And.left⟩

theorem inBox_clamp (h : Broadcasts e d) (hq : InBox d q) : InBox e (clamp e q) := by
  replace h := h.forall₂
  induction h generalizing q with
  | nil =>
    cases hq
    exact .nil
  | cons hn _ ih =>
    obtain ⟨x, xs, hx, hxs, rfl⟩ := List.forall₂_cons_left_iff.mp hq
    rw [clamp]
    refine .cons ?_ (ih hxs)
    split
    case isTrue h1 => exact ⟨le_rfl, by omega⟩
    case isFalse hne =>
      rcases hn with rfl | h1
      · exact hx
      · exact absurd h1 hne

theorem clamp_of_inBox (h : InBox d q) : clamp d q = q := by
  induction h with
  | nil => rfl
  | cons hx _ ih =>
    rw [clamp, ih]
    split
    case isTrue h1 =>
      congr 1
      omega
    case isFalse => rfl

/-- The dimensions that are listed are the one-sided ones. -/
theorem getBroadcastDim_spec (hlen : e.length = e'.length)
    (hdim : ∀ j < e.length, oneSided e e' j = true ∨ e[j]? = e'[j]?) :
    ∃ dims, getBroadcastDim e e' = some dims ∧
      ∀ j < e.length, j ∈ dims ↔ oneSided e e' j = true := by
  rw [getBroadcastDim]
  split
  case isTrue hnil =>
    refine ⟨[], rfl, fun j hj => ?_⟩
    rcases hnil with rfl | rfl
    · cases hj
    · rw [hlen] at hj
      cases hj
  case isFalse =>
    rw [if_pos ⟨hlen, hdim⟩]
    refine ⟨_, rfl, fun j hj => ?_⟩
    rw [List.mem_filter, List.mem_range]
    exact and_iff_right hj

theorem getBroadcastDim_nil (e : List ℤ) : getBroadcastDim e [] = some [] :=
  if_pos (.inr rfl)

theorem oneSided_iff (e e' : List ℤ) (j : ℕ) :
    oneSided e e' j = true ↔ ¬(e[j]? = some 1 ↔ e'[j]? = some 1) := by
  rw [oneSided, bne_iff_ne, Ne, decide_eq_decide]

theorem fitsShape_nil : FitsShape [] e d ↔ e = d := by
  refine ⟨fun h => List.ext_getElem? fun j => ?_, ?_⟩
  · by_cases hj : j < d.length
    · simpa using h.2 j hj
    · rw [List.getElem?_eq_none (not_lt.mp hj), List.getElem?_eq_none (h.1 ▸ not_lt.mp hj)]
  · rintro rfl
    exact ⟨rfl, fun j _ => .inl rfl⟩

/-- Two shapes broadcast against each other fit an output where one of them has each of its
dimensions. -/
theorem fitsShape_both_iff (he : Broadcasts e d) (he' : Broadcasts e' d)
    (hdims : ∀ j < e.length, j ∈ dims ↔ oneSided e e' j = true) :
    FitsShape dims e d ∧ FitsShape dims e' d ↔
      ∀ j < d.length, e[j]? = d[j]? ∨ e'[j]? = d[j]? := by
  constructor
  · rintro ⟨hfit, hfit'⟩ j hj
    refine (hfit.2 j hj).imp_right fun ⟨hone, hmem⟩ => ?_
    rw [hdims j (he.1 ▸ hj), oneSided_iff] at hmem
    exact (he'.2 j hj).resolve_right fun hone' => hmem (iff_of_true hone hone')
  · intro h
    refine ⟨⟨he.1, fun j hj => ?_⟩, ⟨he'.1, fun j hj => ?_⟩⟩
    · have := h j hj
      have := he.2 j hj
      rw [hdims j (he.1 ▸ hj), oneSided_iff]
      grind
    · have := h j hj
      have := he'.2 j hj
      rw [hdims j (he.1 ▸ hj), oneSided_iff]
      grind

/-- A buffer with more than one element is not read at one point only. -/
theorem exists_clamp_ne (h : Broadcasts e d) (hpos : ∀ n ∈ d, 0 < n) (hones : ¬AllOnes e)
    (p : List ℤ) : ∃ q, InBox d q ∧ clamp e q ≠ p := by
  replace h := h.forall₂
  induction h generalizing p with
  | nil => exact absurd nofun hones
  | @cons n m ns ms hn _ ih =>
    have hms : ∀ x ∈ ms, 0 < x := fun x hx => hpos x (List.mem_cons_of_mem _ hx)
    by_cases h1 : n = 1
    · have hns : ¬AllOnes ns := by
        refine fun hall => hones fun x hx => ?_
        rcases List.mem_cons.mp hx with rfl | hx
        · exact h1
        · exact hall x hx
      obtain ⟨q, hq, hne⟩ := ih hms hns p.tail
      refine ⟨0 :: q, .cons ⟨le_rfl, hpos m List.mem_cons_self⟩ hq, ?_⟩
      rintro rfl
      exact hne rfl
    · obtain rfl : n = m := hn.resolve_right h1
      have hrest := inBox_origin hms
      have hn2 := hpos n List.mem_cons_self
      -- two points that differ in this dimension
      by_contra! hall
      have h0 := hall (0 :: _) (.cons ⟨le_rfl, hn2⟩ hrest)
      have h1' := hall (1 :: _) (.cons ⟨by omega, by omega⟩ hrest)
      rw [← h1', clamp, clamp, if_neg h1, if_neg h1] at h0
      cases h0

/-- The only point of a region of one element. -/
theorem toGlobal_clamp_ones {rs : List (ℤ × ℤ)} (hones : AllOnes (extents rs))
    (hlen : q.length = rs.length) : toGlobal rs (clamp (extents rs) q) = rs.map Prod.fst := by
  induction rs generalizing q with
  | nil => rfl
  | cons r rs ih =>
    cases q with
    | nil => cases hlen
    | cons x xs =>
      have hr : r.2 = 1 := hones r.2 List.mem_cons_self
      change toGlobal (r :: rs) (clamp (r.2 :: extents rs) (x :: xs)) = _
      rw [clamp, if_pos hr, toGlobal, ih (fun n hn => hones n (List.mem_cons_of_mem _ hn))
        (Nat.succ.inj hlen), add_zero, List.map_cons]

end Shapes

/-! ## The emitted op -/

section Emit

variable [DecidableEq τ] {T : Target τ V} {f : List V → V} {ins : List (Operand V)} {dims : List ℕ}
  {srcShape : List ℤ} {dst : TypedTensor τ V} {dstR : List (ℤ × ℤ)}

theorem prod_of_collapses {src dst : List ℤ} (h : collapses src dst = true) :
    src.prod = dst.prod := by
  cases dst with
  | nil => exact List.prod_eq_one (by simpa [collapses] using h)
  | cons m ms =>
    simp only [collapses, Bool.and_eq_true, decide_eq_true_eq] at h
    obtain ⟨hm, hms⟩ := h
    rw [← List.prod_take_mul_prod_drop src (src.length - (m :: ms).length + 1), hm, hms,
      List.prod_cons]

theorem prod_of_reshapes {src dst : List ℤ} (h : reshapes src dst = true) :
    src.prod = dst.prod := by
  rw [reshapes, Bool.or_eq_true, decide_eq_true_eq] at h
  rcases h with rfl | h
  · rfl
  · split at h
    · exact (prod_of_collapses h).symm
    · split at h
      · exact prod_of_collapses h
      · exact of_decide_eq_true h

/-- A reshaped tensor has the same elements in the same order. -/
theorem reshapeTensorImpl_spec (src : Tensor V) {shape : List ℤ} (hpos : ∀ n ∈ shape, 0 < n)
    (h : reshapes src.shape shape = true) :
    ∃ r, reshapeTensorImpl src shape = some r ∧ r.shape = shape ∧
      ∀ k, 0 ≤ k → k < shape.prod → r.nth k = src.nth k := by
  have hreshape : ∀ k, 0 ≤ k → k < shape.prod → (src.reshape shape).nth k = src.nth k := by
    intro k h0 hlt
    change src.nth (flatten shape (unflatten shape k)) = _
    rw [flatten_unflatten_of_lt hpos h0 hlt]
  rw [reshapes, Bool.or_eq_true, decide_eq_true_eq] at h
  rw [reshapeTensorImpl]
  by_cases heq : src.shape = shape
  · rw [if_pos heq]
    exact ⟨src, rfl, heq, fun _ _ _ => rfl⟩
  · rw [if_neg heq]
    replace h := h.resolve_left heq
    split at h
    case isTrue hlt =>
      rw [if_pos hlt, if_pos h]
      exact ⟨_, rfl, rfl, hreshape⟩
    case isFalse hlt =>
      rw [if_neg hlt]
      split at h
      case isTrue hgt =>
        rw [if_pos hgt, if_pos h]
        exact ⟨_, rfl, rfl, hreshape⟩
      case isFalse hgt =>
        rw [if_neg hgt, if_pos (of_decide_eq_true h)]
        exact ⟨_, rfl, rfl, hreshape⟩

theorem reshapes_of_reshapeTensorImpl {src r : Tensor V} {shape : List ℤ}
    (h : reshapeTensorImpl src shape = some r) : reshapes src.shape shape = true := by
  rw [reshapes, Bool.or_eq_true, decide_eq_true_eq]
  rw [reshapeTensorImpl] at h
  split at h
  case isTrue heq => exact .inl heq
  case isFalse =>
    right
    split at h
    case isTrue hlt =>
      rw [if_pos hlt]
      split at h
      case isTrue hc => exact hc
      case isFalse => cases h
    case isFalse hlt =>
      rw [if_neg hlt]
      split at h
      case isTrue hgt =>
        rw [if_pos hgt]
        split at h
        case isTrue hc => exact hc
        case isFalse => cases h
      case isFalse hgt =>
        rw [if_neg hgt]
        split at h
        case isTrue hprod => exact decide_eq_true hprod
        case isFalse => cases h

variable (T f dst) in
/-- An op that writes a new tensor, which is inserted. -/
theorem emitVectorOp_part (hdst : Within dst.tensor.shape dstR)
    (hpart : ¬IsWhole dst.tensor.shape dstR) (hfits : ∀ o ∈ ins, o.Fits dims srcShape)
    (hshape : reshapes srcShape (extents dstR) = true) :
    ∃ e, emitVectorOp T f ins dims srcShape dst dstR = some e ∧ e.outShape = srcShape ∧
      e.result.elemTy = dst.elemTy ∧ e.result.tensor.shape = dst.tensor.shape ∧
      (∀ q, InBox (extents dstR) q → e.result.tensor.elem (toGlobal dstR q) =
        f (ins.map (Operand.at (unflatten srcShape (flatten (extents dstR) q))))) ∧
      ∀ p, ¬InRanges dstR p → e.result.tensor.elem p = dst.tensor.elem p := by
  rw [emitVectorOp, needGenInsertSlice]
  simp only [if_neg hpart]
  rw [hivmOp, if_pos hfits]
  obtain ⟨s, hs, hsShape, hnth⟩ := reshapeTensorImpl_spec
    ⟨srcShape, fun p => f (ins.map (Operand.at p))⟩ hdst.extents_pos hshape
  have hfit : rankReduced (extents dstR) s.shape = true := hsShape ▸ rankReduced_self _
  obtain ⟨r, hr, hrShape, hrIn, hrOut⟩ := insertSlice_of_within dst.tensor hdst hfit
  have hinsert : reshapeCastAndInsertSlice T
      ⟨dst.elemTy, ⟨srcShape, fun p => f (ins.map (Operand.at p))⟩⟩ dst dstR =
        some ⟨dst.elemTy, r⟩ := by
    simp [reshapeCastAndInsertSlice, hs, createCastIfTypeMismatch, hr]
  refine ⟨⟨srcShape, ⟨dst.elemTy, r⟩⟩, ?_, rfl, rfl, hrShape, fun q hq => ?_, hrOut⟩
  · simp [hinsert]
  · obtain ⟨h0, hlt⟩ := flatten_bounds hq
    rw [hrIn _ (inRanges_toGlobal hq), toLocal_toGlobal hq, hnth _ h0 hlt]
    rfl

/-- What such an op requires. -/
theorem of_emitVectorOp_part {e : Emitted τ V}
    (h : emitVectorOp T f ins dims srcShape dst dstR = some e)
    (hpart : ¬IsWhole dst.tensor.shape dstR) :
    (∀ o ∈ ins, o.Fits dims srcShape) ∧ reshapes srcShape (extents dstR) = true ∧
      e.outShape = srcShape := by
  rw [emitVectorOp, needGenInsertSlice] at h
  simp only [if_neg hpart] at h
  obtain ⟨v, hv, h⟩ := Option.bind_eq_some_iff.mp h
  obtain ⟨r, hr, h⟩ := Option.bind_eq_some_iff.mp h
  obtain ⟨s, hs, -⟩ := Option.bind_eq_some_iff.mp hr
  obtain rfl := Option.some.inj h
  rw [hivmOp] at hv
  split at hv
  case isTrue hfits =>
    obtain rfl := Option.some.inj hv
    exact ⟨hfits, reshapes_of_reshapeTensorImpl hs, rfl⟩
  case isFalse => cases hv

variable (dst) in
theorem emitVectorOp_whole (hwhole : IsWhole dst.tensor.shape dstR) :
    emitVectorOp T f ins dims srcShape dst dstR =
      (hivmOp f ins dst.tensor.shape dims).map fun r =>
        ⟨dst.tensor.shape, ⟨dst.elemTy, r⟩⟩ := by
  rw [emitVectorOp, needGenInsertSlice]
  simp only [if_pos hwhole]
  cases hivmOp f ins dst.tensor.shape dims <;> rfl

theorem fits_of_hivmOp {out : List ℤ} {r : Tensor V} (h : hivmOp f ins out dims = some r) :
    (∀ o ∈ ins, o.Fits dims out) ∧ r = ⟨out, fun p => f (ins.map (Operand.at p))⟩ := by
  rw [hivmOp] at h
  split at h
  case isTrue hfits => exact ⟨hfits, (Option.some.inj h).symm⟩
  case isFalse => cases h

variable (T f dst) in
/-- Operands that fit the region, and an output of its shape. -/
theorem emitVectorOp_spec (hdst : Within dst.tensor.shape dstR)
    (hfits : ∀ o ∈ ins, o.Fits dims (extents dstR))
    (hshape : srcShape = extents dstR ∨ IsWhole dst.tensor.shape dstR) :
    ∃ e, emitVectorOp T f ins dims srcShape dst dstR = some e ∧ e.outShape = extents dstR ∧
      e.result.elemTy = dst.elemTy ∧ e.result.tensor.shape = dst.tensor.shape ∧
      (∀ q, InBox (extents dstR) q →
        e.result.tensor.elem (toGlobal dstR q) = f (ins.map (Operand.at q))) ∧
      ∀ p, InBox dst.tensor.shape p → ¬InRanges dstR p →
        e.result.tensor.elem p = dst.tensor.elem p := by
  by_cases hwhole : IsWhole dst.tensor.shape dstR
  · rw [emitVectorOp_whole dst hwhole, hivmOp, if_pos (hwhole.1 ▸ hfits)]
    refine ⟨_, rfl, hwhole.1, rfl, rfl, fun q hq => ?_, fun p hp hnot => ?_⟩
    · rw [toGlobal_of_isWhole hwhole (hwhole.1 ▸ List.Forall₂.length_eq hq).symm]
    · exact absurd (inRanges_of_isWhole hwhole hp) hnot
  · obtain rfl := hshape.resolve_right hwhole
    obtain ⟨e, he, hout, hty, hres, hin, houtside⟩ := emitVectorOp_part T f dst hdst
      hwhole hfits (by simp [reshapes])
    refine ⟨e, he, hout, hty, hres, fun q hq => ?_, fun p _ => houtside p⟩
    rw [hin q hq, unflatten_flatten hq]

/-- An output of the shape of the region, which the operands have to fit. -/
theorem fits_of_emitVectorOp {e : Emitted τ V}
    (h : emitVectorOp T f ins dims srcShape dst dstR = some e) (hout : e.outShape = extents dstR) :
    (∀ o ∈ ins, o.Fits dims (extents dstR)) ∧
      (srcShape = extents dstR ∨ IsWhole dst.tensor.shape dstR) := by
  by_cases hwhole : IsWhole dst.tensor.shape dstR
  · rw [emitVectorOp_whole dst hwhole] at h
    obtain ⟨r, hr, -⟩ := Option.map_eq_some_iff.mp h
    exact ⟨hwhole.1 ▸ (fits_of_hivmOp hr).1, .inr hwhole⟩
  · obtain ⟨hfits, -, hsrc⟩ := of_emitVectorOp_part h hwhole
    rw [hout] at hsrc
    exact ⟨hsrc ▸ hfits, .inl hsrc.symm⟩

end Emit

/-! ## Operands -/

section Operands

variable {t : Tensor V} {rs : List (ℤ × ℤ)} {d shape : List ℤ} {elem : List ℤ → V}

theorem genExtractSliceFromRegion_spec (hin : Within t.shape rs) :
    ∃ s, genExtractSliceFromRegion t rs = some s ∧ s.shape = extents rs ∧
      ∀ q, InBox (extents rs) q → s.elem q = t.elem (toGlobal rs q) := by
  rw [genExtractSliceFromRegion]
  split
  case isTrue hwhole =>
    refine ⟨t, rfl, hwhole.1, fun q hq => ?_⟩
    rw [toGlobal_of_isWhole hwhole (hwhole.1 ▸ List.Forall₂.length_eq hq).symm]
  case isFalse => exact extractSlice_extents hin

theorem Operand.at_tensor (t : Tensor V) (q : List ℤ) :
    (Operand.tensor t).at q = t.elem (clamp t.shape q) :=
  rfl

theorem Source.valueAt_region (t : Tensor V) (rs : List (ℤ × ℤ)) (q : List ℤ) :
    (Source.region t rs).valueAt q = t.elem (toGlobal rs (clamp (extents rs) q)) :=
  rfl

/-- A slice is read as its region. -/
theorem slice_at {s : Tensor V} (hshape : s.shape = extents rs)
    (helem : ∀ q, InBox (extents rs) q → s.elem q = t.elem (toGlobal rs q))
    (hbc : Broadcasts (extents rs) d) {q : List ℤ} (hq : InBox d q) :
    (Operand.tensor s).at q = (Source.region t rs).valueAt q := by
  rw [Operand.at_tensor, Source.valueAt_region, hshape, helem _ (inBox_clamp hbc hq)]

/-- The shape the second source stands for in `getBroadcastDim`. -/
def Arg.broadcastShape : Arg → List ℤ
  | scalar => []
  | region _ range => if AllOnes (extents range) then [] else extents range

variable (elem) in
/-- The operand on the right. -/
theorem processImm_right {arg : Arg} (harg : arg.WellFormed d) (hne : d ≠ []) :
    ∃ o, processImm 1 (arg.source elem) = some (o, arg.broadcastShape) ∧
      (∀ dims, o.Fits dims d ↔ arg.broadcastShape = [] ∨ FitsShape dims arg.broadcastShape d) ∧
      ∀ q, InBox d q → o.at q = (arg.source elem).valueAt q := by
  cases arg with
  | scalar => exact ⟨.scalar (elem []), rfl, fun _ => iff_of_true trivial (.inl rfl), fun _ _ => rfl⟩
  | region shape range =>
    obtain ⟨hin, hbc⟩ := harg
    have hrange : range ≠ [] := by
      rintro rfl
      exact hne (List.length_eq_zero_iff.mp hbc.1.symm)
    rw [Arg.source, processImm, if_neg hrange, Arg.broadcastShape]
    by_cases hones : AllOnes (extents range)
    · rw [if_pos hones, if_pos hones, if_neg Nat.one_ne_zero]
      refine ⟨_, rfl, fun _ => iff_of_true trivial (.inl rfl), fun q hq => ?_⟩
      have hlen : q.length = range.length := by
        rw [← List.Forall₂.length_eq hq, ← hbc.1, extents, List.length_map]
      rw [Source.valueAt_region, toGlobal_clamp_ones hones hlen]
      rfl
    · obtain ⟨s, hs, hshape, helem⟩ :=
        genExtractSliceFromRegion_spec (t := ⟨shape, elem⟩) hin
      have hnil : extents range ≠ [] := by
        intro h
        rw [h] at hones
        exact hones fun _ hmem => absurd hmem List.not_mem_nil
      rw [if_neg hones, if_neg hones, hs, ← hshape]
      refine ⟨.tensor s, rfl, fun dims => ?_, fun q hq => slice_at hshape helem hbc hq⟩
      rw [hshape, or_iff_right hnil, Operand.Fits, hshape]

/-- A buffer of one element is its region. -/
theorem shape_eq_of_allOnes (hin : Within shape rs) (hones : AllOnes shape) :
    shape = extents rs := by
  induction hin with
  | nil => rfl
  | @cons n r ns rs hr _ ih =>
    have hn : n = 1 := hones n List.mem_cons_self
    rw [ih fun m hm => hones m (List.mem_cons_of_mem _ hm)]
    change _ = r.2 :: extents rs
    congr 1
    omega

variable (elem) in
/-- The operand on the left: the slice, or the whole buffer for a region of one element. -/
theorem processImm_left (hin : Within shape rs) (hbc : Broadcasts (extents rs) d) (hne : d ≠ []) :
    ∃ t, processImm 0 (.region ⟨shape, elem⟩ rs) = some (.tensor t, t.shape) ∧
      (AllOnes (extents rs) → t = ⟨shape, elem⟩) ∧
      ((AllOnes (extents rs) → AllOnes shape) → t.shape = extents rs ∧
        ∀ q, InBox d q →
          (Operand.tensor t).at q = (Source.region ⟨shape, elem⟩ rs).valueAt q) := by
  have hrange : rs ≠ [] := by
    rintro rfl
    exact hne (List.length_eq_zero_iff.mp hbc.1.symm)
  rw [processImm, if_neg hrange]
  by_cases hones : AllOnes (extents rs)
  · rw [if_pos hones, if_pos rfl]
    refine ⟨_, rfl, fun _ => rfl, fun hshape => ?_⟩
    have heq := shape_eq_of_allOnes hin (hshape hones)
    refine ⟨heq, fun q hq => slice_at heq (fun q hq => ?_) hbc hq⟩
    rw [toGlobal_of_isWhole (hin.isWhole heq) (heq ▸ List.Forall₂.length_eq hq).symm]
  · obtain ⟨s, hs, hshape, helem⟩ := genExtractSliceFromRegion_spec (t := ⟨shape, elem⟩) hin
    rw [if_neg hones, hs]
    refine ⟨s, rfl, fun h => absurd h hones, fun _ => ⟨hshape, fun q hq => ?_⟩⟩
    exact slice_at hshape helem hbc hq

end Operands

/-! ## Calls on their regions -/

section Calls

variable [DecidableEq τ] {f : List V → V} {vcast : τ → τ → V → V} {dstTy : τ}
  {dstShape : List ℤ} {dstR : List (ℤ × ℤ)}

/-- The emitted op for all contents of the tensors, and what it makes of the destination. -/
def VectorCall.Computes (call : VectorCall) (f : List V → V) (vcast : τ → τ → V → V) (dstTy : τ)
    (dstShape : List ℤ) (dstR : List (ℤ × ℤ)) : Prop :=
  ∀ (elem0 elem1 dstElem : List ℤ → V) (empty : ℕ → List ℤ → V),
    ∃ e, call.codegen ⟨vcast, empty⟩ f elem0 elem1 ⟨dstTy, dstShape, dstElem⟩ dstR = some e ∧
      e.outShape = extents dstR ∧ e.result.elemTy = dstTy ∧
      ComputesRegion f (call.sources elem0 elem1) ⟨dstShape, dstElem⟩ e.result.tensor dstR

theorem unary_computes_iff [Nonempty V] {shape : List ℤ} {range : List (ℤ × ℤ)}
    (hsrc : Within shape range) (hbc : Broadcasts (extents range) (extents dstR))
    (hdst : Within dstShape dstR) :
    (VectorCall.unary shape range).Computes f vcast dstTy dstShape dstR ↔
      extents range = extents dstR ∨ IsWhole dstShape dstR := by
  have hdim : ∀ j < (extents range).length, oneSided (extents range) (extents dstR) j = true ∨
      (extents range)[j]? = (extents dstR)[j]? := by
    intro j hj
    have := hbc.2 j (hbc.1 ▸ hj)
    rw [oneSided_iff]
    grind
  obtain ⟨dims, hdims, hmem⟩ := getBroadcastDim_spec hbc.1 hdim
  have hfits := ((fitsShape_both_iff hbc (Broadcasts.refl _) hmem).mpr fun _ _ => .inr rfl).1
  refine ⟨fun h => ?_, fun h elem0 elem1 dstElem empty => ?_⟩
  · obtain ⟨x⟩ := ‹Nonempty V›
    obtain ⟨e, he, hout, -, -⟩ := h (fun _ => x) (fun _ => x) (fun _ => x) fun _ _ => x
    obtain ⟨s, hs, hshape, -⟩ :=
      genExtractSliceFromRegion_spec (t := ⟨shape, fun _ => x⟩) hsrc
    rw [VectorCall.codegen, unaryVecOpCodegen] at he
    simp only [hs, hdims, Option.bind_eq_bind, Option.bind_some] at he
    rw [← hshape]
    exact (fits_of_emitVectorOp he hout).2
  · obtain ⟨s, hs, hshape, helem⟩ := genExtractSliceFromRegion_spec (t := ⟨shape, elem0⟩) hsrc
    rw [VectorCall.codegen, unaryVecOpCodegen]
    simp only [hs, hdims, Option.bind_eq_bind, Option.bind_some]
    have hfit : ∀ o ∈ [Operand.tensor s], o.Fits dims (extents dstR) := by
      intro o ho
      obtain rfl := List.mem_singleton.mp ho
      rwa [Operand.Fits, hshape]
    obtain ⟨e, he, hout, hty, hres, hin, houtside⟩ := emitVectorOp_spec
      ⟨vcast, empty⟩ f ⟨dstTy, dstShape, dstElem⟩ hdst hfit (hshape ▸ h)
    refine ⟨e, he, hout, hty, hres, fun q hq => ?_, houtside⟩
    rw [hin q hq]
    exact congrArg (fun v => f [v]) (slice_at hshape helem hbc hq)

/-- The operands of a binary op fit the region and its output has the shape of the region, where
the first source has the extents of the region or the second has those that the first lacks. -/
theorem binary_fits_iff {e0 ed : List ℤ} {src1 : Arg} (hbc : Broadcasts e0 ed)
    (hsrc1 : src1.WellFormed ed) {whole : Prop} :
    (∃ dims, getBroadcastDim e0 src1.broadcastShape = some dims ∧ FitsShape dims e0 ed ∧
        (src1.broadcastShape = [] ∨ FitsShape dims src1.broadcastShape ed) ∧
        (e0 = ed ∨ whole)) ↔
      e0 = ed ∨ whole ∧ src1.Completes e0 ed := by
  by_cases hnil : src1.broadcastShape = []
  · have hnot : ¬src1.Completes e0 ed := by
      cases src1 with
      | scalar => exact id
      | region shape range =>
        rintro ⟨hones, -⟩
        rw [Arg.broadcastShape, if_neg hones] at hnil
        exact hones (hnil ▸ nofun)
    rw [hnil, getBroadcastDim_nil]
    constructor
    · rintro ⟨dims, hdims, hfit, -⟩
      obtain rfl := Option.some.inj hdims
      exact .inl (fitsShape_nil.mp hfit)
    · rintro (heq | ⟨-, h⟩)
      · exact ⟨[], rfl, fitsShape_nil.mpr heq, .inl rfl, .inl heq⟩
      · exact absurd h hnot
  · cases src1 with
    | scalar => exact absurd rfl hnil
    | region shape range =>
      have hones : ¬AllOnes (extents range) := by
        intro h
        rw [Arg.broadcastShape, if_pos h] at hnil
        exact hnil rfl
      have hbc1 := hsrc1.2
      rw [Arg.broadcastShape, if_neg hones] at hnil ⊢
      have hdim : ∀ j < e0.length,
          oneSided e0 (extents range) j = true ∨ e0[j]? = (extents range)[j]? := by
        intro j hj
        have := hbc.2 j (hbc.1 ▸ hj)
        have := hbc1.2 j (hbc.1 ▸ hj)
        rw [oneSided_iff]
        grind
      obtain ⟨dims, hdims, hmem⟩ := getBroadcastDim_spec (hbc.1.trans hbc1.1.symm) hdim
      have hiff := fitsShape_both_iff hbc hbc1 hmem
      constructor
      · rintro ⟨dims', hdims', hfit, hfit1, hshape⟩
        obtain rfl := Option.some.inj (hdims.symm.trans hdims')
        refine hshape.imp_right fun hwhole => ⟨hwhole, hones, ?_⟩
        exact hiff.mp ⟨hfit, hfit1.resolve_left hnil⟩
      · intro h
        have hboth : ∀ j < ed.length, e0[j]? = ed[j]? ∨ (extents range)[j]? = ed[j]? := by
          rcases h with rfl | ⟨-, -, h⟩
          · exact fun _ _ => .inl rfl
          · exact h
        obtain ⟨hfit, hfit1⟩ := hiff.mpr hboth
        exact ⟨dims, hdims, hfit, .inr hfit1, h.imp_right And.left⟩

theorem Arg.valueAt_const (arg : Arg) (y : V) (q : List ℤ) :
    (arg.source fun _ => y).valueAt q = y := by
  cases arg <;> rfl

theorem createHIVMBinaryVectorOp_eq {T : Target τ V} {src0 src1 : Source V} {t : Tensor V}
    {o : Operand V} {shape1 : List ℤ} {dst : TypedTensor τ V}
    (h0 : processImm 0 src0 = some (.tensor t, t.shape)) (h1 : processImm 1 src1 = some (o, shape1)) :
    createHIVMBinaryVectorOp T f src0 src1 dst dstR =
      (getBroadcastDim t.shape shape1).bind fun dims =>
        emitVectorOp T f [.tensor t, o] dims t.shape dst dstR := by
  rw [createHIVMBinaryVectorOp, h0, h1]
  rfl

theorem binary_computes_iff (hf : ∃ a b y, f [a, y] ≠ f [b, y]) {shape : List ℤ}
    {range : List (ℤ × ℤ)} {src1 : Arg} (hsrc : Within shape range)
    (hbc : Broadcasts (extents range) (extents dstR)) (hsrc1 : src1.WellFormed (extents dstR))
    (hdst : Within dstShape dstR) :
    (VectorCall.binary shape range src1).Computes f vcast dstTy dstShape dstR ↔
      (VectorCall.binary shape range src1).Exact dstShape dstR := by
  have hnil : extents dstR = [] ↔ dstR = [] := List.map_eq_nil_iff
  constructor
  · intro h
    obtain ⟨a, b, y, hab⟩ := hf
    -- the first source holds `a` at its first element and `b` elsewhere
    let elem0 : List ℤ → V := fun p => if p = range.map Prod.fst then a else b
    obtain ⟨e, he, hout, -, hcomp⟩ := h elem0 (fun _ => y) (fun _ => y) fun _ _ => y
    rw [VectorCall.codegen] at he
    have hrank : dstR ≠ [] := by
      rintro rfl
      obtain rfl : range = [] := List.map_eq_nil_iff.mp (List.length_eq_zero_iff.mp hbc.1)
      cases he
    obtain ⟨t, ht, hall, hslice⟩ := processImm_left elem0 hsrc hbc (hnil.not.mpr hrank)
    obtain ⟨o, ho, hofits, hoat⟩ := processImm_right (fun _ => y) hsrc1 (hnil.not.mpr hrank)
    rw [createHIVMBinaryVectorOp_eq ht ho] at he
    obtain ⟨dims, hdims, hemit⟩ := Option.bind_eq_some_iff.mp he
    obtain ⟨hfits, hshape⟩ := fits_of_emitVectorOp hemit hout
    have hfit0 : FitsShape dims t.shape (extents dstR) := hfits _ List.mem_cons_self
    have hfit1 := (hofits dims).mp (hfits o (List.mem_cons_of_mem _ List.mem_cons_self))
    have hones : AllOnes (extents range) → AllOnes shape := by
      intro hone
      by_contra hnot
      obtain rfl := hall hone
      obtain ⟨q, hq, hne⟩ :=
        exists_clamp_ne hfit0.broadcasts hdst.extents_pos hnot (range.map Prod.fst)
      obtain ⟨e', he', -, -, -, hin, -⟩ := emitVectorOp_spec ⟨vcast, fun _ _ => y⟩ f
        ⟨dstTy, dstShape, fun _ => y⟩ hdst hfits hshape
      obtain rfl := Option.some.inj (hemit.symm.trans he')
      have hlen : q.length = range.length := by
        rw [← List.Forall₂.length_eq hq, ← hbc.1, extents, List.length_map]
      have hval := (hcomp.inside q hq).symm.trans (hin q hq)
      simp only [VectorCall.sources, List.map_cons, List.map_nil, hoat q hq, Arg.valueAt_const,
        Operand.at_tensor, Source.valueAt_region, toGlobal_clamp_ones hone hlen] at hval
      apply hab
      simpa only [elem0, if_true, if_neg hne] using hval
    refine ⟨hrank, hones, ?_⟩
    rw [(hslice hones).1] at hdims hfit0 hshape
    exact (binary_fits_iff hbc hsrc1).mp ⟨dims, hdims, hfit0, hfit1, hshape⟩
  · rintro ⟨hrank, hones, hfit⟩ elem0 elem1 dstElem empty
    obtain ⟨t, ht, -, hslice⟩ := processImm_left elem0 hsrc hbc (hnil.not.mpr hrank)
    obtain ⟨o, ho, hofits, hoat⟩ := processImm_right elem1 hsrc1 (hnil.not.mpr hrank)
    obtain ⟨hshape, hat⟩ := hslice hones
    obtain ⟨dims, hdims, hfit0, hfit1, hwhole⟩ := (binary_fits_iff hbc hsrc1).mpr hfit
    rw [VectorCall.codegen, createHIVMBinaryVectorOp_eq ht ho, hshape, hdims, Option.bind_some]
    have hfits : ∀ o' ∈ [Operand.tensor t, o], o'.Fits dims (extents dstR) := by
      intro o' ho'
      rcases List.mem_pair.mp ho' with rfl | rfl
      · rwa [Operand.Fits, hshape]
      · exact (hofits dims).mpr hfit1
    obtain ⟨e, he, hout, hty, hres, hin, houtside⟩ := emitVectorOp_spec
      ⟨vcast, empty⟩ f ⟨dstTy, dstShape, dstElem⟩ hdst hfits hwhole
    refine ⟨e, he, hout, hty, hres, fun q hq => ?_, houtside⟩
    rw [hin q hq]
    simp only [VectorCall.sources, List.map_cons, List.map_nil, hat q hq, hoat q hq]

end Calls

end TileLangNpuir.DevTensor
