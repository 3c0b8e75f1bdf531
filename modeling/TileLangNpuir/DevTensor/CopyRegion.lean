import Mathlib.Logic.Nontrivial.Basic
import TileLangNpuir.DevTensor.Copy

/-!
# What a copy to a tensor changes

`CopiesRegion` says that the destination region holds the elements of the source region, one by
one in row-major order, and that nothing else changed. The slice that is inserted always holds the
source region; the insertion is well formed where the dimensions that were left out of it fit the
destination (`LinesUp`), and where the element types differ the rest of the destination is lost.
-/

namespace TileLangNpuir.DevTensor

open RowMajor

variable {τ V : Type} [DecidableEq τ]

/-- The conversion of an element from one type to another. -/
def Target.convert (T : Target τ V) (srcTy dstTy : τ) (x : V) : V :=
  if srcTy = dstTy then x else T.vcast srcTy dstTy x

/-- The region of the destination holds the converted elements of the source region, and the rest
is as it was. -/
structure CopiesRegion (f : V → V) (src dst res : Tensor V) (srcR dstR : List (ℤ × ℤ)) : Prop where
  shape : res.shape = dst.shape
  inside : ∀ k, 0 ≤ k → k < (extents dstR).prod →
    res.elem (toGlobal dstR (unflatten (extents dstR) k)) =
      f (src.elem (toGlobal srcR (unflatten (extents srcR) k)))
  outside : ∀ p, InBox dst.shape p → ¬InRanges dstR p → res.elem p = dst.elem p

/-- The source extents fit the destination extents: a destination of rank zero takes a source of
rank zero, and from another tensor the extents without the first ones, as many as there are
dimensions too many, stand in order among those of the destination. -/
def LinesUp (kind : SourceKind) (src dst : List ℤ) : Prop :=
  (dst = [] → src = []) ∧
    (kind = .tensor → (dropOnes (src.length - dst.length) src).Sublist dst)

instance (kind : SourceKind) (src dst : List ℤ) : Decidable (LinesUp kind src dst) :=
  inferInstanceAs (Decidable (_ ∧ _))

/-! ## Slices -/

section Slices

variable {T : Target τ V} {t src base : Tensor V} {rs view : List (ℤ × ℤ)} {shape : List ℤ}

theorem createRankReduced_spec (hin : Within t.shape rs)
    (hshape : rankReduced (extents rs) shape = true) :
    ∃ s, createRankReduced t rs shape = some s ∧ s.shape = shape ∧
      ∀ k, 0 ≤ k → k < shape.prod → s.nth k = t.elem (toGlobal rs (unflatten (extents rs) k)) := by
  rw [createRankReduced, if_pos (List.Forall₂.length_eq hin).symm]
  split
  case isFalse => exact extractSlice_of_within hin hshape
  case isTrue hwhole =>
    obtain ⟨hrank, hwhole⟩ := hwhole
    obtain rfl : shape = t.shape := by
      rw [← hwhole.1] at hshape
      exact (rankReduced_iff.mp hshape).1.eq_of_length hrank.symm
    refine ⟨t, rfl, rfl, fun k _ _ => ?_⟩
    rw [← hwhole.1, toGlobal_of_isWhole hwhole (length_unflatten _ _)]
    rfl

variable (base) in
/-- Elements copied to a view are found there. -/
theorem copyThrough_spec (hin : Within base.shape view)
    (hshape : rankReduced (extents view) src.shape = true) :
    ∃ ub loaded, insertSlice src base view = some ub ∧
      createRankReduced ub view src.shape = some loaded ∧ loaded.shape = src.shape ∧
        ∀ k, 0 ≤ k → k < src.shape.prod → loaded.nth k = src.nth k := by
  obtain ⟨ub, hub, hubShape, hubIn, -⟩ := insertSlice_of_within base hin hshape
  obtain ⟨loaded, hloaded, hloadedShape, hnth⟩ :=
    createRankReduced_spec (t := ub) (hubShape ▸ hin) hshape
  refine ⟨ub, loaded, hub, hloaded, hloadedShape, fun k h0 hlt => ?_⟩
  rw [prod_of_rankReduced hshape] at hlt
  have hbox := inBox_unflatten hin.extents_pos h0 hlt
  rw [hnth k h0 (by rwa [prod_of_rankReduced hshape]), hubIn _ (inRanges_toGlobal hbox),
    toLocal_toGlobal hbox, flatten_unflatten_of_lt hin.extents_pos h0 hlt]

variable {slice dst : TypedTensor τ V} {dstR : List (ℤ × ℤ)}

variable (T slice) in
/-- An inserted slice, and what becomes of the rest. -/
theorem insertSliceWithCast_spec (hin : Within dst.tensor.shape dstR)
    (hshape : rankReduced (extents dstR) slice.tensor.shape = true) :
    ∃ res, insertSliceWithCast T slice dst dstR = some res ∧ res.elemTy = dst.elemTy ∧
      res.tensor.shape = dst.tensor.shape ∧
      (∀ p, InRanges dstR p → res.tensor.elem p = T.convert slice.elemTy dst.elemTy
        (slice.tensor.nth (flatten (extents dstR) (toLocal dstR p)))) ∧
      ∀ p, ¬InRanges dstR p → res.tensor.elem p =
        if slice.elemTy = dst.elemTy then dst.tensor.elem p
        else T.vcast slice.elemTy dst.elemTy (T.empty 1 p) := by
  rw [insertSliceWithCast]
  split
  case isTrue hty =>
    obtain ⟨r, hr, hrShape, hrIn, hrOut⟩ := insertSlice_of_within dst.tensor hin hshape
    rw [hr]
    refine ⟨⟨dst.elemTy, r⟩, rfl, rfl, hrShape, fun p hp => ?_, hrOut⟩
    rw [Target.convert, if_pos hty]
    exact hrIn p hp
  case isFalse hty =>
    obtain ⟨r, hr, hrShape, hrIn, hrOut⟩ :=
      insertSlice_of_within ⟨dst.tensor.shape, T.empty 1⟩ hin hshape
    simp only [hr]
    refine ⟨_, rfl, ?_⟩
    rw [createCastIfTypeMismatch, if_neg hty]
    refine ⟨rfl, hrShape, fun p hp => ?_, fun p hp => ?_⟩
    · rw [Target.convert, if_neg hty, ← hrIn p hp]
      rfl
    · exact congrArg _ (hrOut p hp)

theorem rankReduced_of_insertSliceWithCast {res : TypedTensor τ V}
    (h : insertSliceWithCast T slice dst dstR = some res) :
    rankReduced (extents dstR) slice.tensor.shape = true := by
  rw [insertSliceWithCast] at h
  split at h
  · obtain ⟨r, hr, -⟩ := Option.bind_eq_some_iff.mp h
    exact rankReduced_of_insertSlice hr
  · obtain ⟨r, hr, -⟩ := Option.bind_eq_some_iff.mp h
    exact rankReduced_of_insertSlice hr

end Slices

/-! ## Shapes -/

section Shapes

variable {s d : List ℤ}

theorem eq_replicate_of_backbone (h : backbone s = []) : s = List.replicate s.length 1 := by
  rw [backbone, List.filter_eq_nil_iff] at h
  exact List.eq_replicate_of_mem fun n hn => by simpa using h n hn

theorem dropOnes_replicate (n m : ℕ) :
    dropOnes n (List.replicate m 1) = List.replicate (m - n) 1 := by
  induction m generalizing n with
  | zero => cases n <;> simp [dropOnes]
  | succ m ih =>
    cases n with
    | zero => rfl
    | succ n => rw [List.replicate_succ, dropOnes, if_pos rfl, ih, Nat.add_sub_add_right]

/-- A shape of ones, with a dimension, can be brought to a single one. -/
theorem rankReduced_one_iff (hback : backbone d = []) : rankReduced d [1] = true ↔ d ≠ [] := by
  rw [rankReduced_iff, hback]
  refine ⟨fun h hnil => ?_, fun h => ⟨?_, rfl⟩⟩
  · rw [hnil] at h
    cases h.1
  · rw [eq_replicate_of_backbone hback]
    exact List.singleton_sublist.mpr (List.mem_replicate.mpr
      ⟨(List.length_pos_iff.mpr h).ne', rfl⟩)

theorem rankReduced_collapse (s : List ℤ) (m : ℕ) :
    rankReduced s (collapseStaticOneDims s m).sizes = true := by
  by_cases hs : s = []
  · rw [hs]
    rfl
  · by_cases hback : backbone s = []
    · rw [collapse_ones hs hback]
      exact (rankReduced_one_iff hback).mpr hs
    · rw [collapse_sizes hback]
      exact rankReduced_dropOnes _ _

/-- The sizes a tensor slice is collapsed to. -/
theorem collapse_tensor_fits_iff (hagree : backbone s = backbone d) :
    rankReduced d (collapseStaticOneDims s (min s.length d.length : ℕ)).sizes = true ↔
      LinesUp .tensor s d := by
  have hsub : ∀ n, rankReduced d (dropOnes n s) = true ↔ (dropOnes n s).Sublist d := by
    intro n
    rw [rankReduced_iff, ← hagree, (rankReduced_iff.mp (rankReduced_dropOnes n s)).2]
    exact and_iff_left rfl
  by_cases hs : s = []
  · subst hs
    refine iff_of_true ((hsub 0).mpr (List.nil_sublist _)) ⟨fun _ => rfl, fun _ => ?_⟩
    rw [List.length_nil, Nat.zero_sub, dropOnes_zero]
    exact List.nil_sublist _
  · by_cases hback : backbone s = []
    · rw [collapse_ones hs hback, LinesUp]
      -- all extents are one: a single one is left
      have hd := eq_replicate_of_backbone (hagree ▸ hback)
      have hsub' : (dropOnes (s.length - d.length) s).Sublist d := by
        rw [eq_replicate_of_backbone hback, dropOnes_replicate, hd]
        refine (List.replicate_sublist_replicate 1).mpr ?_
        simp only [List.length_replicate]
        omega
      rw [rankReduced_one_iff (hagree ▸ hback)]
      exact ⟨fun h => ⟨fun h' => absurd h' h, fun _ => hsub'⟩, fun h h' => hs (h.1 h')⟩
    · have hle := length_backbone_le s
      have hle' := length_backbone_le d
      rw [← hagree] at hle'
      have hnum : s.length - max (min s.length d.length) (backbone s).length =
          s.length - d.length := by omega
      rw [collapse_sizes hback, hnum, hsub, LinesUp]
      refine ⟨fun h => ⟨fun hnil => ?_, fun _ => h⟩, fun h => h.2 rfl⟩
      subst hnil
      exact absurd hagree hback

/-- The sizes a memref slice is collapsed to. -/
theorem collapse_memref (hagree : backbone s = backbone d) :
    (collapseStaticOneDims s ((computeUBAllocShapeFromDstRange d).length : ℕ)).sizes =
      if s = [] then [] else computeUBAllocShapeFromDstRange d := by
  by_cases hs : s = []
  · rw [if_pos hs, hs]
    rfl
  · rw [if_neg hs]
    have hub : computeUBAllocShapeFromDstRange d = if backbone d = [] then [1] else backbone d := rfl
    by_cases hback : backbone s = []
    · rw [collapse_ones hs hback, hub, ← hagree, if_pos hback]
    · rw [collapse_sizes hback, hub, ← hagree, if_neg hback, max_self]
      exact dropOnes_eq_backbone (by omega)

theorem collapse_memref_fits_iff (hagree : backbone s = backbone d) :
    rankReduced d (if s = [] then [] else computeUBAllocShapeFromDstRange d) = true ↔
      LinesUp .memref s d := by
  by_cases hs : s = []
  · have hback : backbone d = [] := by rw [← hagree, hs]; rfl
    rw [if_pos hs, rankReduced_iff, hback]
    exact iff_of_true ⟨List.nil_sublist _, rfl⟩ ⟨fun _ => hs, nofun⟩
  · have hlines : LinesUp .memref s d ↔ d ≠ [] :=
      ⟨fun h hnil => hs (h.1 hnil), fun h => ⟨fun hnil => absurd hnil h, nofun⟩⟩
    have hub : computeUBAllocShapeFromDstRange d = if backbone d = [] then [1] else backbone d := rfl
    rw [if_neg hs, hlines, hub]
    split
    case isTrue hback => exact rankReduced_one_iff hback
    case isFalse hback =>
      refine iff_of_true (rankReduced_backbone d) ?_
      rintro rfl
      exact hback rfl

theorem pos_computeUBAllocShape (hpos : ∀ n ∈ d, 0 < n) :
    ∀ n ∈ computeUBAllocShapeFromDstRange d, 0 < n := by
  intro n hn
  rw [computeUBAllocShapeFromDstRange] at hn
  split at hn
  · obtain rfl := List.mem_singleton.mp hn
    exact Int.one_pos
  · exact hpos n (List.mem_of_mem_filter hn)

theorem within_zero (hpos : ∀ n ∈ d, 0 < n) : Within d (d.map (0, ·)) := by
  rw [Within, List.forall₂_map_right_iff, List.forall₂_same]
  exact fun n hn => ⟨le_rfl, hpos n hn, by omega⟩

theorem extents_zero (d : List ℤ) : extents (d.map (0, ·)) = d := by
  simp [extents, Function.comp_def]

/-- The view of the compact buffer takes the slice. -/
theorem ubView_spec (hagree : backbone s = backbone d) (hpos : ∀ n ∈ d, 0 < n) {ubShape copySizes : List ℤ}
    (hub : ubShape = computeUBAllocShapeFromDstRange d)
    (hcopy : copySizes = if s = [] then [] else ubShape) :
    Within ubShape (ubView ubShape copySizes d) ∧
      rankReduced (extents (ubView ubShape copySizes d)) copySizes = true := by
  subst hub
  by_cases hs : s = []
  · -- nothing is left of the source: the view is one element
    have hback : backbone d = [] := by rw [← hagree, hs]; rfl
    have hone : computeUBAllocShapeFromDstRange d = [1] := by
      change (if backbone d = [] then [1] else backbone d) = [1]
      rw [if_pos hback]
    obtain rfl : copySizes = [] := by rw [hcopy, if_pos hs]
    have hview : ubView [1] [] d = [(0, 1)] := by
      simp [ubView]
    rw [hone, hview]
    decide
  · obtain rfl : copySizes = computeUBAllocShapeFromDstRange d := by rw [hcopy, if_neg hs]
    rw [ubView, if_pos rfl, if_pos rfl, extents_zero]
    exact ⟨within_zero (pos_computeUBAllocShape hpos), rankReduced_self _⟩

end Shapes

/-! ## Copies -/

section Copies

variable {T : Target τ V} {src dst : TypedTensor τ V} {srcR dstR : List (ℤ × ℤ)}

/-- The slice is inserted: it holds the source region, so the region is copied, and the rest is
kept where the types are the same. -/
theorem insert_copies {slice : Tensor V} (hdst : Within dst.tensor.shape dstR)
    (hfit : rankReduced (extents dstR) slice.shape = true)
    (hnth : ∀ k, 0 ≤ k → k < slice.shape.prod →
      slice.nth k = src.tensor.elem (toGlobal srcR (unflatten (extents srcR) k))) :
    ∃ res, insertSliceWithCast T ⟨src.elemTy, slice⟩ dst dstR = some res ∧
      res.elemTy = dst.elemTy ∧
      (¬IsWhole dst.tensor.shape dstR → ∀ p, ¬InRanges dstR p → res.tensor.elem p =
        if src.elemTy = dst.elemTy then dst.tensor.elem p
        else T.vcast src.elemTy dst.elemTy (T.empty 1 p)) ∧
      ((src.elemTy = dst.elemTy ∨ IsWhole dst.tensor.shape dstR) →
        CopiesRegion (T.convert src.elemTy dst.elemTy) src.tensor dst.tensor res.tensor srcR dstR) := by
  obtain ⟨res, hres, hty, hshape, hin, hout⟩ :=
    insertSliceWithCast_spec T ⟨src.elemTy, slice⟩ hdst hfit
  refine ⟨res, hres, hty, fun _ => hout, fun hkeep => ⟨hshape, fun k h0 hlt => ?_, fun p hp hnot => ?_⟩⟩
  · have hbox := inBox_unflatten hdst.extents_pos h0 hlt
    rw [hin _ (inRanges_toGlobal hbox), toLocal_toGlobal hbox,
      flatten_unflatten_of_lt hdst.extents_pos h0 hlt, hnth k h0]
    rwa [prod_of_rankReduced hfit]
  · rw [hout p hnot]
    rcases hkeep with heq | hwhole
    · exact if_pos heq
    · exact absurd (inRanges_of_isWhole hwhole hp) hnot

/-- The whole of one tensor, cast, in place of the whole of another. -/
theorem cast_copies (hsrc : IsWhole src.tensor.shape srcR) (hdst : IsWhole dst.tensor.shape dstR)
    (hshape : src.tensor.shape = dst.tensor.shape) :
    CopiesRegion (T.convert src.elemTy dst.elemTy) src.tensor dst.tensor
      (createCastIfTypeMismatch T src dst.elemTy).tensor srcR dstR := by
  have hcast : (createCastIfTypeMismatch T src dst.elemTy).tensor.shape = src.tensor.shape ∧
      ∀ p, (createCastIfTypeMismatch T src dst.elemTy).tensor.elem p =
        T.convert src.elemTy dst.elemTy (src.tensor.elem p) := by
    rw [createCastIfTypeMismatch]
    split
    case isTrue hty => exact ⟨rfl, fun p => by rw [Target.convert, if_pos hty]⟩
    case isFalse hty =>
      refine ⟨rfl, fun p => ?_⟩
      rw [Target.convert, if_neg hty]
      rfl
  refine ⟨hcast.1.trans hshape, fun k _ _ => ?_, fun p hp hnot => ?_⟩
  · rw [hcast.2, ← hdst.1, ← hsrc.1, hshape, toGlobal_of_isWhole hdst (length_unflatten _ _),
      toGlobal_of_isWhole (hshape ▸ hsrc) (length_unflatten _ _)]
  · exact absurd (inRanges_of_isWhole hdst hp) hnot

variable (T src dst) in
/-- What a copy comes to: it is well formed exactly when the extents line up, and then the only
thing that can go wrong is what lies outside the region. -/
theorem ascendCopyCodegen_spec (kind : SourceKind) (hsrc : Within src.tensor.shape srcR)
    (hdst : Within dst.tensor.shape dstR)
    (hagree : backbone (extents srcR) = backbone (extents dstR)) :
    ((ascendCopyCodegen T kind src dst srcR dstR).isSome = true →
      LinesUp kind (extents srcR) (extents dstR)) ∧
    (LinesUp kind (extents srcR) (extents dstR) →
      ∃ res, ascendCopyCodegen T kind src dst srcR dstR = some res ∧ res.elemTy = dst.elemTy ∧
        (¬IsWhole dst.tensor.shape dstR → ∀ p, ¬InRanges dstR p → res.tensor.elem p =
          if src.elemTy = dst.elemTy then dst.tensor.elem p
          else T.vcast src.elemTy dst.elemTy (T.empty 1 p)) ∧
        ((src.elemTy = dst.elemTy ∨ IsWhole dst.tensor.shape dstR) →
          CopiesRegion (T.convert src.elemTy dst.elemTy) src.tensor dst.tensor res.tensor
            srcR dstR)) := by
  cases kind with
  | memref =>
    rw [ascendCopyCodegen, emitCopyMemrefToTensor]
    have hsizes := collapse_memref hagree
    have hslice := rankReduced_collapse (extents srcR)
      (computeUBAllocShapeFromDstRange (extents dstR)).length
    have hfits := collapse_memref_fits_iff hagree
    have hview := ubView_spec hagree hdst.extents_pos rfl hsizes
    rw [← hsizes] at hfits
    obtain ⟨srcView, hsome, hshape, hnth⟩ := createRankReduced_spec hsrc hslice
    rw [← hshape] at hview hfits
    obtain ⟨ub, loaded, hub, hloaded, hloadedShape, hsame⟩ := copyThrough_spec
      ⟨computeUBAllocShapeFromDstRange (extents dstR), T.empty 0⟩ hview.1 hview.2
    simp only [hsome, Option.bind_eq_bind, Option.bind_some]
    simp only [← hshape, hub, hloaded, Option.bind_some]
    rw [← hloadedShape] at hfits
    refine ⟨fun h => ?_, fun h => insert_copies hdst (hfits.mpr h) fun k h0 hlt => ?_⟩
    · obtain ⟨res, hres⟩ := Option.isSome_iff_exists.mp h
      exact hfits.mp (rankReduced_of_insertSliceWithCast hres)
    · rw [hloadedShape] at hlt
      rw [hsame k h0 hlt, hnth k h0 (hshape ▸ hlt)]
  | tensor =>
    rw [ascendCopyCodegen, emitCopyTensorToTensor]
    split
    case isTrue hfast =>
      obtain ⟨hwholeS, hwholeD, hshape⟩ := hfast
      have hext : extents srcR = extents dstR := by rw [← hwholeS.1, hshape, hwholeD.1]
      have hlines : LinesUp .tensor (extents srcR) (extents dstR) := by
        rw [hext]
        refine ⟨id, fun _ => ?_⟩
        rw [Nat.sub_self, dropOnes_zero]
      refine ⟨fun _ => hlines, fun _ => ⟨_, rfl, ?_, fun hnot => absurd hwholeD hnot, fun _ => ?_⟩⟩
      · rw [createCastIfTypeMismatch]
        split
        case isTrue h => exact h
        case isFalse => rfl
      · exact cast_copies hwholeS hwholeD hshape
    case isFalse =>
      have hslice := rankReduced_collapse (extents srcR)
        (min src.tensor.shape.length dst.tensor.shape.length)
      have hfits := collapse_tensor_fits_iff hagree
      rw [hsrc.length_eq, hdst.length_eq] at hfits
      obtain ⟨slice, hsome, hshape, hnth⟩ := createRankReduced_spec hsrc hslice
      rw [← hshape] at hfits hnth
      simp only [hsome, Option.bind_eq_bind, Option.bind_some]
      refine ⟨fun h => ?_, fun h => insert_copies hdst (hfits.mpr h) hnth⟩
      obtain ⟨res, hres⟩ := Option.isSome_iff_exists.mp h
      exact hfits.mp (rankReduced_of_insertSliceWithCast hres)

/-- A copy to a tensor changes the destination region to the source region and nothing else,
whatever the tensors hold, exactly when the element types are the same or the region is all of the
destination, and the extents line up. -/
theorem copiesRegion_iff [Nontrivial V] {kind : SourceKind} {vcast : τ → τ → V → V} {srcTy dstTy : τ}
    {srcShape dstShape : List ℤ} (hsrc : Within srcShape srcR) (hdst : Within dstShape dstR)
    (hagree : backbone (extents srcR) = backbone (extents dstR)) :
    (∀ (srcElem dstElem : List ℤ → V) (empty : ℕ → List ℤ → V),
      ∃ res, ascendCopyCodegen ⟨vcast, empty⟩ kind ⟨srcTy, srcShape, srcElem⟩
          ⟨dstTy, dstShape, dstElem⟩ srcR dstR = some res ∧ res.elemTy = dstTy ∧
        CopiesRegion (fun x => if srcTy = dstTy then x else vcast srcTy dstTy x)
          ⟨srcShape, srcElem⟩ ⟨dstShape, dstElem⟩ res.tensor srcR dstR) ↔
    (srcTy = dstTy ∨ IsWhole dstShape dstR) ∧ LinesUp kind (extents srcR) (extents dstR) := by
  constructor
  · intro h
    obtain ⟨y⟩ : Nonempty V := inferInstance
    obtain ⟨x, hx⟩ := exists_ne (vcast srcTy dstTy y)
    obtain ⟨res, hres, -, hcopies⟩ := h (fun _ => y) (fun _ => x) fun _ _ => y
    obtain ⟨hfit, hspec⟩ := ascendCopyCodegen_spec ⟨vcast, fun _ _ => y⟩
      ⟨srcTy, srcShape, fun _ => y⟩ ⟨dstTy, dstShape, fun _ => x⟩ kind hsrc hdst hagree
    have hlines := hfit (by rw [hres]; rfl)
    refine ⟨?_, hlines⟩
    by_contra! hnot
    -- a point outside the region holds what the new tensor held before it was written
    obtain ⟨p, hp, hout⟩ := exists_not_inRanges hdst hnot.2
    obtain ⟨res', hres', -, hlost, -⟩ := hspec hlines
    obtain rfl := Option.some.inj (hres.symm.trans hres')
    have hkept := hcopies.outside p hp hout
    rw [hlost hnot.2 p hout] at hkept
    exact hx (Eq.trans hkept.symm (if_neg hnot.1))
  · rintro ⟨hkeep, hlines⟩ srcElem dstElem empty
    obtain ⟨-, hspec⟩ := ascendCopyCodegen_spec ⟨vcast, empty⟩ ⟨srcTy, srcShape, srcElem⟩
      ⟨dstTy, dstShape, dstElem⟩ kind hsrc hdst hagree
    obtain ⟨res, hres, hty, -, hcopies⟩ := hspec hlines
    exact ⟨res, hres, hty, hcopies hkeep⟩

/-- A row of a matrix in global memory, copied to a row of a local tensor of higher rank. -/
theorem copiesRegion_row :
    ∃ res, ascendCopyCodegen ⟨fun _ _ x => x, fun _ _ => 7⟩ .memref ⟨16, [8, 32], List.sum⟩
        ⟨16, [4, 1, 32], fun _ => 0⟩ [(5, 1), (0, 32)] [(2, 1), (0, 1), (0, 32)] = some res ∧
      res.elemTy = 16 ∧
      CopiesRegion (fun x => if 16 = 16 then x else x) ⟨[8, 32], List.sum⟩
        ⟨[4, 1, 32], fun _ => 0⟩ res.tensor [(5, 1), (0, 32)] [(2, 1), (0, 1), (0, 32)] :=
  (copiesRegion_iff (V := ℤ) (by decide) (by decide) (by decide)).mpr ⟨.inl rfl, by decide⟩
    List.sum (fun _ => 0) fun _ _ => 7

/-- Two elements converted into the middle of four: the first of the four is lost. -/
theorem copiesRegion_lost :
    ¬∃ res, ascendCopyCodegen ⟨fun _ _ x => x, fun _ _ => 7⟩ .tensor ⟨16, [2], fun _ => 1⟩
        ⟨32, [4], fun _ => (0 : ℤ)⟩ [(0, 2)] [(1, 2)] = some res ∧ res.elemTy = 32 ∧
      CopiesRegion (fun x => if 16 = 32 then x else x) ⟨[2], fun _ => 1⟩ ⟨[4], fun _ => 0⟩
        res.tensor [(0, 2)] [(1, 2)] := by
  rintro ⟨res, hres, -, hcopies⟩
  have hjunk : (ascendCopyCodegen ⟨fun _ _ x => x, fun _ _ => 7⟩ .tensor ⟨16, [2], fun _ => 1⟩
      ⟨32, [4], fun _ => (0 : ℤ)⟩ [(0, 2)] [(1, 2)]).map (fun r => r.tensor.elem [0]) = some 7 := by
    decide
  rw [hres] at hjunk
  have hkept := hcopies.outside [0] (by decide) (by decide)
  exact absurd (hkept.symm.trans (Option.some.inj hjunk)) (by decide)

end Copies

end TileLangNpuir.DevTensor
