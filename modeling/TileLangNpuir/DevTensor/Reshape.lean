import TileLangNpuir.DevTensor.Vector
import TileLangNpuir.Lib.Reassociation

/-!
# Reshaping for slices

`ReshapeTensorImpl` of `src/target/codegen_npuir_dev.cc` on static shapes: a tensor is expanded or
collapsed to the shape of the slice that it is inserted as. Dimensions that are too many are put
into one group with the first one, wherever they stand, so the shapes have to agree in all
dimensions but the first. Here the groups are built and the elements moved by them; the model of
the vector ops says only which shapes fit (`isSome_reshapeTensorImpl`).
-/

namespace TileLangNpuir.DevTensor.Groups

open RowMajor

/-- The reassociation: the first dimension with the extra ones, the others one to one. -/
def reassociate (rank extraDims : ℕ) : List (List ℕ) :=
  (List.range rank).map fun idx =>
    if idx = 0 then List.range (extraDims + 1) else [extraDims + idx]

/-- All dimensions in one group. -/
def allDims (rank : ℕ) : List (List ℕ) := if 0 < rank then [List.range rank] else []

section

variable {V : Type}

/-- `ReshapeTensorImpl`. -/
def reshapeTensorImpl (src : Tensor V) (dstShape : List ℤ) : Option (Tensor V) :=
  let srcRank := src.shape.length
  let dstRank := dstShape.length
  if src.shape = dstShape then some src
  else if srcRank < dstRank then
    let extraDims := dstRank - srcRank
    expandShape src (reassociate srcRank extraDims) dstShape
  else if dstRank < srcRank then
    let extraDims := srcRank - dstRank
    collapseShape src (reassociate dstRank extraDims) dstShape
  else do
    -- the shapes differ: through one dimension
    let totalStaticSize := src.shape.foldl (· * ·) 1
    let collapsed ← collapseShape src (allDims srcRank) [totalStaticSize]
    expandShape collapsed (allDims dstRank) dstShape

end

/-- The shapes agree in all but the first dimension of the one with the smaller rank, or have the
same rank. -/
def TrailingMatch (src dst : List ℤ) : Prop :=
  src.length = dst.length ∨
    let rest := min src.length dst.length - 1
    src.drop (src.length - rest) = dst.drop (dst.length - rest)

instance (src dst : List ℤ) : Decidable (TrailingMatch src dst) :=
  inferInstanceAs (Decidable (_ ∨ _))

/-! ## Groups -/

section

variable {collapsed expanded : List ℤ} {extra : ℕ}

theorem reassociate_succ (n extra : ℕ) : reassociate (n + 1) extra =
    List.range (extra + 1) :: (List.range n).map fun i => [extra + 1 + i] := by
  rw [reassociate, List.range_succ_eq_map (n := n), List.map_cons, if_pos rfl, List.map_map]
  refine congrArg _ (List.map_congr_left fun i _ => ?_)
  simp [Nat.add_assoc, Nat.add_comm 1]

theorem flatten_reassociate (n extra : ℕ) :
    (reassociate (n + 1) extra).flatten = List.range (extra + (n + 1)) := by
  have hrest : ((List.range n).map fun i => [extra + 1 + i]).flatten =
      (List.range n).map fun i => extra + 1 + i := by
    rw [← List.flatMap_def, ← List.map_eq_flatMap]
  have hcomm : extra + (n + 1) = extra + 1 + n := by omega
  rw [reassociate_succ, List.flatten_cons, hrest, hcomm]
  exact (List.range_add ..).symm

theorem reassociate_ne_nil (n extra : ℕ) : ∀ g ∈ reassociate n extra, g ≠ [] := by
  intro g hg
  obtain ⟨idx, -, rfl⟩ := List.mem_map.mp hg
  split <;> simp

theorem map_getD_range_add {l : List ℤ} {m n : ℕ} (h : m + n = l.length) :
    ((List.range n).map fun i => l.getD (m + i) 1) = l.drop m := by
  refine List.ext_getElem (by rw [List.length_map, List.length_range, List.length_drop]; omega)
    fun i hi hi' => ?_
  have hlt : m + i < l.length := by
    rw [List.length_drop] at hi'
    omega
  simp [hlt]

/-- The extents of the groups: the first extents together, the others alone. -/
theorem prod_groups_reassociate {n : ℕ} (h : expanded.length = extra + (n + 1)) :
    (groups expanded (reassociate (n + 1) extra)).map List.prod =
      (expanded.take (extra + 1)).prod :: expanded.drop (extra + 1) := by
  have hfirst : ((List.range (extra + 1)).map fun i => expanded.getD i 1) =
      expanded.take (extra + 1) := by
    refine List.ext_getElem (by simp; omega) fun i hi hi' => ?_
    have hlt : i < expanded.length := by
      rw [List.length_take] at hi'
      omega
    simp [hlt]
  have hrest := map_getD_range_add (l := expanded) (m := extra + 1) (n := n) (by omega)
  rw [groups, reassociate_succ, List.map_cons, List.map_cons, hfirst, List.map_map, List.map_map,
    ← hrest]
  refine congrArg _ (List.map_congr_left fun i _ => ?_)
  exact mul_one _

/-- The groups fit exactly when all dimensions but the first agree. -/
theorem fits_reassociate_iff (hlen : expanded.length = extra + collapsed.length)
    (hback : backbone collapsed = backbone expanded) :
    Fits collapsed expanded (reassociate collapsed.length extra) ↔
      collapsed.drop 1 = expanded.drop (expanded.length - (collapsed.length - 1)) := by
  cases collapsed with
  | nil =>
    refine iff_of_true ⟨rfl, fun n hn => ?_⟩ (by simp)
    by_contra hne
    have hmem : n ∈ backbone expanded := List.mem_filter.mpr ⟨hn, by simpa using hne⟩
    rw [← hback] at hmem
    cases hmem
  | cons c cs =>
    rw [List.length_cons] at hlen
    have hdrop : expanded.length - (cs.length + 1 - 1) = extra + 1 := by omega
    rw [Fits, if_neg (List.cons_ne_nil c cs), List.length_cons, prod_groups_reassociate hlen,
      List.cons.injEq, hdrop, List.drop_one, List.tail_cons]
    refine ⟨fun h => h.2.2.2.symm, fun hrest => ?_⟩
    refine ⟨by rw [flatten_reassociate, hlen], reassociate_ne_nil _ _, ?_, hrest.symm⟩
    -- what is left of the two backbones is that of the first group
    have hsplit := hback
    rw [← List.take_append_drop (extra + 1) expanded, ← hrest, backbone, backbone,
      ← List.singleton_append, List.filter_append, List.filter_append] at hsplit
    have hfirst : backbone [c] = backbone (expanded.take (extra + 1)) :=
      List.append_cancel_right hsplit
    rw [← prod_backbone (expanded.take (extra + 1)), ← hfirst, prod_backbone, List.prod_singleton]

theorem fits_allDims_iff {shape : List ℤ} (h : shape ≠ []) (n : ℤ) :
    Fits [n] shape (allDims shape.length) ↔ n = shape.prod := by
  have hpos := List.length_pos_iff.mpr h
  have hmap := map_getD_range_add (l := shape) (m := 0) (n := shape.length) (Nat.zero_add _)
  simp only [Nat.zero_add, List.drop_zero] at hmap
  rw [Fits, if_neg (List.cons_ne_nil _ _), allDims, if_pos hpos, groups, List.map_singleton,
    List.map_singleton, hmap, List.singleton_inj]
  refine ⟨fun hfits => hfits.2.2.symm, fun hn => ⟨by simp, fun g hg => ?_, hn.symm⟩⟩
  rw [List.mem_singleton.mp hg]
  simpa using h

end

/-! ## Reshaping -/

section

variable {V : Type} {t : Tensor V} {src dst : List ℤ}

theorem nonneg_of_backbone (h : backbone src = backbone dst) (hsrc : ∀ n ∈ src, 0 ≤ n) :
    ∀ n ∈ dst, 0 ≤ n := by
  intro n hn
  by_cases hone : n = 1
  · omega
  · have hmem : n ∈ backbone dst := List.mem_filter.mpr ⟨hn, by simpa using hone⟩
    rw [← h] at hmem
    exact hsrc n (List.mem_of_mem_filter hmem)

/-- The reshaped tensor has the shape, and every element its row-major number. -/
def Reshapes (t : Tensor V) (dst : List ℤ) (res : Option (Tensor V)) : Prop :=
  ∃ r, res = some r ∧ r.shape = dst ∧ ∀ k, 0 ≤ k → k < t.shape.prod → r.nth k = t.nth k

/-- Shapes of one rank are reshaped through one dimension. -/
theorem reshapes_of_length_eq (hlen : t.shape.length = dst.length)
    (hback : backbone t.shape = backbone dst) (hsrc : ∀ n ∈ t.shape, 0 ≤ n) :
    Reshapes t dst (reshapeTensorImpl t dst) := by
  rw [reshapeTensorImpl]
  by_cases heq : t.shape = dst
  · rw [if_pos heq]
    exact ⟨t, rfl, heq, fun k _ _ => rfl⟩
  · have hne : t.shape ≠ [] := by
      intro hnil
      rw [hnil] at hlen heq
      exact heq (List.length_eq_zero_iff.mp hlen.symm).symm
    have hne' : dst ≠ [] := by
      intro hnil
      rw [hnil] at hlen
      exact hne (List.length_eq_zero_iff.mp hlen)
    have hprod : dst.prod = t.shape.prod := by
      rw [← prod_backbone, ← hback, prod_backbone]
    have hfold : t.shape.foldl (· * ·) 1 = t.shape.prod := List.prod_eq_foldl.symm
    obtain ⟨c, hc, hcshape, hcnth⟩ := collapseShape_spec hsrc ((fits_allDims_iff hne _).mpr rfl)
    have hfits : Fits c.shape dst (allDims dst.length) := by
      rw [hcshape]
      exact (fits_allDims_iff hne' _).mpr hprod.symm
    obtain ⟨r, hr, hrshape, hrnth⟩ := expandShape_spec (nonneg_of_backbone hback hsrc) hfits
    rw [if_neg heq, if_neg hlen.not_lt, if_neg hlen.not_gt, hfold]
    dsimp only
    rw [hc]
    refine ⟨r, hr, hrshape, fun k h0 hlt => ?_⟩
    rw [hrnth k h0 (by rwa [hcshape, List.prod_singleton]), hcnth k h0 hlt]

theorem drop_length_sub (l : List ℤ) : l.drop (l.length - (l.length - 1)) = l.drop 1 := by
  cases l with
  | nil => rfl
  | cons x l =>
    have hone : (x :: l).length - ((x :: l).length - 1) = 1 := by
      rw [List.length_cons]
      omega
    rw [hone]

theorem reshapes_expand_iff (hlt : t.shape.length < dst.length)
    (hback : backbone t.shape = backbone dst) (hsrc : ∀ n ∈ t.shape, 0 ≤ n) :
    Reshapes t dst (reshapeTensorImpl t dst) ↔ TrailingMatch t.shape dst := by
  have hne : t.shape ≠ dst := fun heq => hlt.ne (congrArg List.length heq)
  have hlen : dst.length = dst.length - t.shape.length + t.shape.length := by omega
  have hfits := fits_reassociate_iff hlen hback
  have htrail : TrailingMatch t.shape dst ↔
      t.shape.drop 1 = dst.drop (dst.length - (t.shape.length - 1)) := by
    rw [TrailingMatch, or_iff_right hlt.ne]
    simp only [min_eq_left hlt.le, drop_length_sub]
  rw [reshapeTensorImpl, if_neg hne, if_pos hlt, htrail, ← hfits]
  refine ⟨fun h => ?_, expandShape_spec (nonneg_of_backbone hback hsrc)⟩
  by_contra hnot
  obtain ⟨r, hr, -⟩ := h
  dsimp only at hr
  rw [expandShape, if_neg hnot] at hr
  cases hr

theorem reshapes_collapse_iff (hlt : dst.length < t.shape.length)
    (hback : backbone t.shape = backbone dst) (hsrc : ∀ n ∈ t.shape, 0 ≤ n) :
    Reshapes t dst (reshapeTensorImpl t dst) ↔ TrailingMatch t.shape dst := by
  have hne : t.shape ≠ dst := fun heq => hlt.ne (congrArg List.length heq.symm)
  have hlen : t.shape.length = t.shape.length - dst.length + dst.length := by omega
  have hfits := fits_reassociate_iff hlen hback.symm
  have htrail : TrailingMatch t.shape dst ↔
      dst.drop 1 = t.shape.drop (t.shape.length - (dst.length - 1)) := by
    rw [TrailingMatch, or_iff_right hlt.ne']
    simp only [min_eq_right hlt.le, drop_length_sub]
    exact eq_comm
  rw [reshapeTensorImpl, if_neg hne, if_neg hlt.not_gt, if_pos hlt, htrail, ← hfits]
  refine ⟨fun h => ?_, collapseShape_spec hsrc⟩
  by_contra hnot
  obtain ⟨r, hr, -⟩ := h
  dsimp only at hr
  rw [collapseShape, if_neg hnot] at hr
  cases hr

/-- Static shapes that agree but for ones are reshaped, in order, exactly when they agree in all
but the first dimension of the one with the smaller rank, or have the same rank. -/
theorem reshape_iff (V : Type) [Inhabited V] (src dst : List ℤ) (hsrc : ∀ n ∈ src, 0 ≤ n)
    (hback : backbone src = backbone dst) :
    (∀ t : Tensor V, t.shape = src → Reshapes t dst (reshapeTensorImpl t dst)) ↔
      TrailingMatch src dst := by
  have hall : ∀ t : Tensor V, t.shape = src →
      (Reshapes t dst (reshapeTensorImpl t dst) ↔ TrailingMatch src dst) := by
    rintro t rfl
    rcases lt_trichotomy t.shape.length dst.length with hlt | heq | hgt
    · exact reshapes_expand_iff hlt hback hsrc
    · exact iff_of_true (reshapes_of_length_eq heq hback hsrc) (.inl heq)
    · exact reshapes_collapse_iff hgt hback hsrc
  refine ⟨fun h => ?_, fun h t ht => (hall t ht).mpr h⟩
  exact (hall ⟨src, fun _ => default⟩ rfl).mp (h _ rfl)

/-- A row of a picture is taken out and put back. -/
theorem reshape_iff_leading : Reshapes (V := ℤ) ⟨[4, 8], fun p => p.sum⟩ [1, 1, 4, 8]
    (reshapeTensorImpl ⟨[4, 8], fun p => p.sum⟩ [1, 1, 4, 8]) :=
  (reshape_iff ℤ [4, 8] [1, 1, 4, 8] (by decide) (by decide)).mpr (by decide) _ rfl

/-- The slice `[:, i, :, j]` puts a one between the dimensions. -/
theorem reshape_inner_one : ¬∀ (src dst : List ℤ), (∀ n ∈ src, 0 ≤ n) →
    backbone src = backbone dst →
      ∀ t : Tensor ℤ, t.shape = src → Reshapes t dst (reshapeTensorImpl t dst) := by
  intro h
  obtain ⟨r, hr, -⟩ := h [4, 8] [4, 1, 8, 1] (by decide) (by decide) ⟨[4, 8], fun p => p.sum⟩ rfl
  have hnone : reshapeTensorImpl ⟨[4, 8], fun p : List ℤ => p.sum⟩ [4, 1, 8, 1] = none := by
    rw [reshapeTensorImpl, if_neg (by decide), if_pos (by decide)]
    exact if_neg (by decide)
  rw [hnone] at hr
  cases hr

/-- The groups fit where the model of the vector ops says so. -/
theorem fits_reassociate_iff_collapses {collapsed expanded : List ℤ} {extra : ℕ}
    (hlen : expanded.length = extra + collapsed.length) :
    Fits collapsed expanded (reassociate collapsed.length extra) ↔
      collapses expanded collapsed = true := by
  cases collapsed with
  | nil =>
    simp [Fits, collapses, reassociate]
  | cons c cs =>
    have hextra : expanded.length - (c :: cs).length + 1 = extra + 1 := by omega
    rw [List.length_cons] at hlen
    rw [Fits, if_neg (List.cons_ne_nil c cs), List.length_cons, prod_groups_reassociate hlen,
      List.cons.injEq, collapses, hextra, Bool.and_eq_true, decide_eq_true_eq, decide_eq_true_eq]
    refine ⟨fun h => h.2.2, fun h => ⟨?_, reassociate_ne_nil _ _, h⟩⟩
    rw [flatten_reassociate, hlen]

theorem isSome_reshapeTensorImpl (t : Tensor V) (dst : List ℤ) :
    (reshapeTensorImpl t dst).isSome = (DevTensor.reshapeTensorImpl t dst).isSome := by
  rw [reshapeTensorImpl, DevTensor.reshapeTensorImpl]
  by_cases heq : t.shape = dst
  · rw [if_pos heq, if_pos heq]
  · rw [if_neg heq, if_neg heq]
    dsimp only
    split
    · rename_i hlt
      have hfits : Fits t.shape dst (reassociate t.shape.length (dst.length - t.shape.length)) ↔
          collapses dst t.shape = true := fits_reassociate_iff_collapses (by omega)
      rw [expandShape]
      simp only [hfits]
      split <;> rfl
    · rename_i hle
      split
      · rename_i hlt
        have hfits : Fits dst t.shape (reassociate dst.length (t.shape.length - dst.length)) ↔
            collapses t.shape dst = true := fits_reassociate_iff_collapses (by omega)
        rw [collapseShape]
        simp only [hfits]
        split <;> rfl
      · rename_i hge
        have hne : t.shape ≠ [] := by
          intro hnil
          rw [hnil] at heq hle
          exact hle (List.length_pos_iff.mpr (Ne.symm heq))
        have hne' : dst ≠ [] := by
          intro hnil
          rw [hnil] at heq hge
          exact hge (List.length_pos_iff.mpr heq)
        have hfold : t.shape.foldl (· * ·) 1 = t.shape.prod := List.prod_eq_foldl.symm
        rw [hfold, collapseShape, if_pos ((fits_allDims_iff hne _).mpr rfl)]
        simp only [Option.bind_eq_bind, Option.bind_some, expandShape, fits_allDims_iff hne']
        split <;> rfl

end

end TileLangNpuir.DevTensor.Groups
