import TileLangNpuir.Lib.Tensor

/-!
# Copies to a tensor in developer mode

`AscendCopyCodegen` of `src/target/codegen_npuir_dev.cc` where the destination is a tensor: from a
memref through a compact buffer, or from another tensor. The source slice is brought to the rank
of the destination by leaving out dimensions of size one (`CollapseStaticOneDims`), inserted, and
cast where the element types differ. All sizes and offsets are numbers here.
-/

namespace TileLangNpuir.DevTensor

open RowMajor

/-! ## Dropping dimensions of size one -/

/-- `CollapsedDims`; with static sizes `projected` is `sizes`. -/
structure CollapsedDims : Type where
  sizes : List ℤ
  keptIdx : List ℕ
  deriving DecidableEq

/-- A size with the index of its dimension. -/
abbrev Dim : Type := ℤ × ℕ

/-- One turn of the loop of `removeByRange`: the indices to remove, and how many remain to be
removed. -/
def removeStep (st : List ℕ × ℕ) (d : Dim) : List ℕ × ℕ :=
  if 0 < st.2 ∧ d.1 = 1 then (d.2 :: st.1, st.2 - 1) else st

/-- `removeByRange`: the ones among the dimensions from `start` up to `stop`. -/
def removeByRange (dims : List Dim) (start stop : ℕ) (st : List ℕ × ℕ) : List ℕ × ℕ :=
  ((dims.take (stop + 1)).drop start).foldl removeStep st

/-- The ones to remove: those in front, those between, and those at the end. -/
def removeFlags (dims : List Dim) (firstNonOne lastNonOne numToRemove : ℕ) : List ℕ :=
  let st := ([], numToRemove)
  let st := if 0 < firstNonOne then removeByRange dims 0 (firstNonOne - 1) st else st
  let st :=
    if 0 < st.2 ∧ 1 < lastNonOne - firstNonOne then
      removeByRange dims (firstNonOne + 1) (lastNonOne - 1) st
    else st
  let st :=
    if 0 < st.2 ∧ lastNonOne < dims.length - 1 then
      removeByRange dims (lastNonOne + 1) (dims.length - 1) st
    else st
  st.1

/-- The dimensions that stay. -/
def keepDims (dims : List Dim) : CollapsedDims := ⟨dims.map Prod.fst, dims.map Prod.snd⟩

/-- `CollapseStaticOneDims`. -/
def collapseStaticOneDims (fullSizes : List ℤ) (maxRank : ℤ) : CollapsedDims :=
  let dims := fullSizes.zipIdx
  let nonOnes := dims.filter fun d => d.1 ≠ 1
  if fullSizes = [] then ⟨[], []⟩
  else if maxRank < 0 then
    if nonOnes = [] then ⟨[1], [0]⟩ else keepDims nonOnes
  else
    match nonOnes.head?, nonOnes.getLast? with
    | some first, some last =>
      let maxRank := min (max maxRank nonOnes.length) fullSizes.length
      let numToRemove := (fullSizes.length - maxRank).toNat
      if numToRemove = 0 ∨ dims.all (fun d => d.1 ≠ 1) then keepDims dims
      else keepDims (dims.filter fun d => d.2 ∉ removeFlags dims first.2 last.2 numToRemove)
    | _, _ => ⟨[1], [0]⟩

/-- A list of sizes without its first `n` ones. -/
def dropOnes : ℕ → List ℤ → List ℤ
  | 0, ns => ns
  | _, [] => []
  | n + 1, m :: ms => if m = 1 then dropOnes n ms else m :: dropOnes (n + 1) ms

/-! ## Values -/

variable {τ V : Type}

/-- A tensor or the contents of a memref, with the element type. -/
structure TypedTensor (τ V : Type) : Type where
  elemTy : τ
  tensor : Tensor V

/-- How elements are converted, and what a new tensor holds before it is written. -/
structure Target (τ V : Type) : Type where
  vcast : τ → τ → V → V
  empty : ℕ → List ℤ → V

variable [DecidableEq τ] (T : Target τ V)

/-- `CreateCastIfTypeMismatch`. -/
def createCastIfTypeMismatch (src : TypedTensor τ V) (dstTy : τ) : TypedTensor τ V :=
  if src.elemTy = dstTy then src else ⟨dstTy, src.tensor.map (T.vcast src.elemTy dstTy)⟩

/-- `InsertSliceWithCast`. -/
def insertSliceWithCast (srcSlice dst : TypedTensor τ V) (dstR : List (ℤ × ℤ)) :
    Option (TypedTensor τ V) :=
  if srcSlice.elemTy = dst.elemTy then do
    let result ← insertSlice srcSlice.tensor dst.tensor dstR
    return ⟨dst.elemTy, result⟩
  else do
    let shadowEmpty : Tensor V := ⟨dst.tensor.shape, T.empty 1⟩
    let inserted ← insertSlice srcSlice.tensor shadowEmpty dstR
    return createCastIfTypeMismatch T ⟨srcSlice.elemTy, inserted⟩ dst.elemTy

/-- `CreateRankReducedSubviewFromBaseRank`, `CreateRankReducedExtractSlice`. -/
def createRankReduced (base : Tensor V) (ranges : List (ℤ × ℤ)) (shape : List ℤ) :
    Option (Tensor V) :=
  if ranges.length = base.shape.length then
    if base.shape.length = shape.length ∧ IsWhole base.shape ranges then some base
    else extractSlice base ranges shape
  else none

/-- `ComputeUBAllocShapeFromDstRange`. -/
def computeUBAllocShapeFromDstRange (dstSizes : List ℤ) : List ℤ :=
  let ubAllocShape := dstSizes.filter fun d => d ≠ 1
  if ubAllocShape = [] then [1] else ubAllocShape

/-- The ranges of the view of the compact buffer: all of it, a part of the same rank, or the sizes
put where the destination keeps its dimensions. -/
def ubView (ubAllocShape copySizes dstSizes : List ℤ) : List (ℤ × ℤ) :=
  if copySizes.length = ubAllocShape.length then
    if copySizes = ubAllocShape then ubAllocShape.map (0, ·) else copySizes.map (0, ·)
  else
    let dstC := collapseStaticOneDims dstSizes ubAllocShape.length
    let ones := List.replicate ubAllocShape.length 1
    let fullSizes :=
      if dstC.keptIdx.length = copySizes.length ∧ dstC.keptIdx.length ≤ ubAllocShape.length then
        (List.zip dstC.keptIdx copySizes).foldl (fun sizes p => sizes.set p.1 p.2) ones
      else copySizes.zipIdx.foldl (fun sizes p => sizes.set p.2 p.1) ones
    fullSizes.map (0, ·)

/-- `EmitCopyMemrefToTensor`. -/
def emitCopyMemrefToTensor (src dst : TypedTensor τ V) (srcR dstR : List (ℤ × ℤ)) :
    Option (TypedTensor τ V) := do
  let ubAllocShape := computeUBAllocShapeFromDstRange (extents dstR)
  let srcC := collapseStaticOneDims (extents srcR) ubAllocShape.length
  let srcView ← createRankReduced src.tensor srcR srcC.sizes
  let baseUb : Tensor V := ⟨ubAllocShape, T.empty 0⟩
  let view := ubView ubAllocShape srcC.sizes (extents dstR)
  -- `memref.copy` to the view, and `to_tensor` of the view
  let ub ← insertSlice srcView baseUb view
  let loaded ← createRankReduced ub view srcC.sizes
  insertSliceWithCast T ⟨src.elemTy, loaded⟩ dst dstR

/-- `EmitCopyTensorToTensor`. -/
def emitCopyTensorToTensor (src dst : TypedTensor τ V) (srcR dstR : List (ℤ × ℤ)) :
    Option (TypedTensor τ V) :=
  if IsWhole src.tensor.shape srcR ∧ IsWhole dst.tensor.shape dstR ∧
      src.tensor.shape = dst.tensor.shape then
    some (createCastIfTypeMismatch T src dst.elemTy)
  else do
    let maxRank := min src.tensor.shape.length dst.tensor.shape.length
    let srcC := collapseStaticOneDims (extents srcR) maxRank
    let srcSlice ← createRankReduced src.tensor srcR srcC.sizes
    insertSliceWithCast T ⟨src.elemTy, srcSlice⟩ dst dstR

/-- What the source of a copy is. -/
inductive SourceKind : Type where
  | memref | tensor
  deriving DecidableEq

/-- `AscendCopyCodegen` with a tensor as its destination. -/
def ascendCopyCodegen : SourceKind → TypedTensor τ V → TypedTensor τ V → List (ℤ × ℤ) →
    List (ℤ × ℤ) → Option (TypedTensor τ V)
  | .memref => emitCopyMemrefToTensor T
  | .tensor => emitCopyTensorToTensor T

/-! ## What is dropped -/

section Collapse

/-- The ones of a list of dimensions. -/
def ones (dims : List Dim) : List Dim := dims.filter fun d => d.1 = 1

theorem foldl_removeStep (dims : List Dim) (removed : List ℕ) (n : ℕ) :
    dims.foldl removeStep (removed, n) =
      ((((ones dims).take n).map Prod.snd).reverse ++ removed, n - (ones dims).length) := by
  induction dims generalizing removed n with
  | nil => simp [ones]
  | cons d ds ih =>
    rw [List.foldl_cons]
    by_cases hone : d.1 = 1
    · have hones : ones (d :: ds) = d :: ones ds := by simp [ones, hone]
      cases n with
      | zero =>
        rw [removeStep, if_neg (by simp), ih]
        simp
      | succ n =>
        rw [removeStep, if_pos ⟨Nat.succ_pos n, hone⟩, ih, hones]
        simp [Nat.add_sub_add_right]
    · have hones : ones (d :: ds) = ones ds := by simp [ones, hone]
      rw [removeStep, if_neg fun h => hone h.2, ih, hones]

theorem mem_zipIdx_iff {α : Type} {sizes : List α} {k : ℕ} {d : α × ℕ} (h : d ∈ sizes.zipIdx k) :
    k ≤ d.2 ∧ (sizes.zipIdx k)[d.2 - k]? = some d := by
  obtain ⟨x, i⟩ := d
  obtain ⟨hle, hx⟩ := List.mem_zipIdx_iff_le_and_getElem?_sub.mp h
  refine ⟨hle, ?_⟩
  rw [List.getElem?_zipIdx, hx, Option.map_some, Nat.add_sub_cancel' hle]

/-- Left of a dimension that is not a one, right of it. -/
theorem ones_split {dims : List Dim} {i : ℕ} {d : Dim} (h : dims[i]? = some d) (hne : d.1 ≠ 1) :
    ones dims = ones (dims.take i) ++ ones (dims.drop (i + 1)) := by
  obtain ⟨hi, rfl⟩ := List.getElem?_eq_some_iff.mp h
  conv_lhs => rw [← List.take_append_drop i dims, List.drop_eq_getElem_cons hi]
  rw [ones, List.filter_append, List.filter_cons_of_neg (by simpa using hne)]
  rfl

/-- A pass that is skipped would have changed nothing. -/
theorem foldl_removeStep_guard {p : Prop} [Decidable p] {dims : List Dim} {st : List ℕ × ℕ}
    (h : ¬p → st.2 = 0 ∨ dims = []) :
    (if p then dims.foldl removeStep st else st) = dims.foldl removeStep st := by
  split
  · rfl
  · next hp =>
    obtain ⟨removed, n⟩ := st
    rcases h hp with hzero | rfl
    · obtain rfl : n = 0 := hzero
      rw [foldl_removeStep]
      simp
    · rfl

/-- The three ranges together are all the ones. -/
theorem removeFlags_eq {dims : List Dim} {first last : Dim} {n : ℕ}
    (hfirst : dims[first.2]? = some first) (hlast : dims[last.2]? = some last)
    (hf : first.1 ≠ 1) (hl : last.1 ≠ 1) (hle : first.2 ≤ last.2) :
    removeFlags dims first.2 last.2 n = (((ones dims).take n).map Prod.snd).reverse := by
  have hlen : last.2 < dims.length := (List.getElem?_eq_some_iff.mp hlast).1
  have hlead : ∀ st, (if 0 < first.2 then removeByRange dims 0 (first.2 - 1) st else st) =
      (dims.take first.2).foldl removeStep st := by
    intro st
    by_cases hpos : 0 < first.2
    · rw [if_pos hpos, removeByRange, Nat.sub_add_cancel hpos, List.drop_zero]
    · obtain hzero : first.2 = 0 := by omega
      rw [if_neg hpos, hzero]
      rfl
  have hmiddle : ∀ st : List ℕ × ℕ, (if 0 < st.2 ∧ 1 < last.2 - first.2 then
      removeByRange dims (first.2 + 1) (last.2 - 1) st else st) =
        ((dims.take last.2).drop (first.2 + 1)).foldl removeStep st := by
    intro st
    rw [← foldl_removeStep_guard (p := 0 < st.2 ∧ 1 < last.2 - first.2)]
    · refine if_ctx_congr Iff.rfl (fun h => ?_) fun _ => rfl
      rw [removeByRange, Nat.sub_add_cancel (by omega)]
    · intro h
      by_cases hzero : st.2 = 0
      · exact .inl hzero
      · refine .inr (List.drop_eq_nil_of_le ?_)
        rw [List.length_take]
        omega
  have htrail : ∀ st : List ℕ × ℕ, (if 0 < st.2 ∧ last.2 < dims.length - 1 then
      removeByRange dims (last.2 + 1) (dims.length - 1) st else st) =
        (dims.drop (last.2 + 1)).foldl removeStep st := by
    intro st
    rw [← foldl_removeStep_guard (p := 0 < st.2 ∧ last.2 < dims.length - 1)]
    · refine if_ctx_congr Iff.rfl (fun h => ?_) fun _ => rfl
      rw [removeByRange, Nat.sub_add_cancel (by omega), List.take_length]
    · intro h
      by_cases hzero : st.2 = 0
      · exact .inl hzero
      · exact .inr (List.drop_eq_nil_of_le (by omega))
  -- the first and the last dimension that is not a one separate the ranges
  have hsplit : ones (dims.take last.2) =
      ones (dims.take first.2) ++ ones ((dims.take last.2).drop (first.2 + 1)) := by
    rcases hle.lt_or_eq with hlt | heq
    · have hfirst' : (dims.take last.2)[first.2]? = some first := by
        rw [List.getElem?_take_of_lt hlt, hfirst]
      rw [ones_split hfirst' hf, List.take_take, min_eq_left hle]
    · rw [heq, List.drop_eq_nil_of_le (by rw [List.length_take]; omega)]
      simp [ones]
  rw [removeFlags, hlead, hmiddle, htrail, ← List.foldl_append, ← List.foldl_append,
    foldl_removeStep, List.append_nil]
  have hall : ones (dims.take first.2 ++ ((dims.take last.2).drop (first.2 + 1) ++
      dims.drop (last.2 + 1))) = ones dims := by
    rw [ones_split hlast hl, hsplit]
    simp only [ones, List.filter_append, List.append_assoc]
  rw [hall]

/-- Leaving out the first `n` ones by their indices. -/
theorem filter_zipIdx_eq_dropOnes (sizes : List ℤ) (n k : ℕ) :
    ((sizes.zipIdx k).filter fun d =>
      d.2 ∉ ((ones (sizes.zipIdx k)).take n).map Prod.snd).map Prod.fst = dropOnes n sizes := by
  induction sizes generalizing n k with
  | nil => cases n <;> simp [dropOnes]
  | cons m ms ih =>
    have hlater : ∀ d ∈ ms.zipIdx (k + 1), d.2 ≠ k := by
      intro d hd
      have := (mem_zipIdx_iff hd).1
      omega
    cases n with
    | zero => simp [dropOnes, List.zipIdx_map_fst]
    | succ n =>
      rw [List.zipIdx_cons, dropOnes]
      by_cases hone : m = 1
      · have hones : ones ((m, k) :: ms.zipIdx (k + 1)) = (m, k) :: ones (ms.zipIdx (k + 1)) := by
          simp [ones, hone]
        rw [if_pos hone, ← ih n (k + 1), hones, List.take_succ_cons, List.map_cons,
          List.filter_cons_of_neg (by simp)]
        refine congrArg _ (List.filter_congr fun d hd => ?_)
        simp [hlater d hd]
      · have hones : ones ((m, k) :: ms.zipIdx (k + 1)) = ones (ms.zipIdx (k + 1)) := by
          simp [ones, hone]
        have hk : k ∉ ((ones (ms.zipIdx (k + 1))).take (n + 1)).map Prod.snd := by
          intro hmem
          obtain ⟨d, hd, hdk⟩ := List.mem_map.mp hmem
          exact hlater d (List.mem_of_mem_filter (List.mem_of_mem_take hd)) hdk
        rw [if_neg hone, ← ih (n + 1) (k + 1), hones, List.filter_cons_of_pos (by simpa using hk),
          List.map_cons]

theorem length_nonOnes (sizes : List ℤ) :
    (sizes.zipIdx.filter fun d => d.1 ≠ 1).length = (backbone sizes).length := by
  rw [backbone, ← List.zipIdx_map_fst 0 sizes, List.filter_map, List.length_map,
    List.zipIdx_map_fst]
  rfl

theorem dropOnes_zero (ns : List ℤ) : dropOnes 0 ns = ns := by
  cases ns <;> rfl

theorem dropOnes_of_forall_ne {sizes : List ℤ} (h : ∀ n ∈ sizes, n ≠ 1) (n : ℕ) :
    dropOnes n sizes = sizes := by
  induction sizes with
  | nil => cases n <;> rfl
  | cons m ms ih =>
    cases n with
    | zero => rfl
    | succ n =>
      rw [dropOnes, if_neg (h m List.mem_cons_self), ih fun x hx => h x (List.mem_cons_of_mem _ hx)]

/-- The first and the last of a part of the dimensions. -/
theorem head_le_getLast {α : Type} {sizes : List α} {dims : List (α × ℕ)}
    (hsub : dims.Sublist sizes.zipIdx) {first last : α × ℕ} (hf : dims.head? = some first) (hl : dims.getLast? = some last) :
    first.2 ≤ last.2 := by
  have hpair : dims.Pairwise fun d d' => d.2 < d'.2 := by
    refine List.Pairwise.sublist hsub ?_
    rw [← List.pairwise_map, List.zipIdx_map_snd]
    exact List.pairwise_lt_range'
  cases dims with
  | nil => cases hf
  | cons d ds =>
    obtain rfl := Option.some.inj hf
    rcases List.mem_cons.mp (List.mem_of_getLast? hl) with rfl | hmem
    · exact le_rfl
    · exact ((List.pairwise_cons.mp hpair).1 last hmem).le

/-- With a dimension that is not a one, ones are left out from the front until `m` dimensions, or
none of them, remain. -/
theorem collapse_sizes {sizes : List ℤ} (hne : backbone sizes ≠ []) (m : ℕ) :
    (collapseStaticOneDims sizes m).sizes =
      dropOnes (sizes.length - max m (backbone sizes).length) sizes := by
  have hlen := length_nonOnes sizes
  have hnil : sizes ≠ [] := by
    rintro rfl
    exact hne rfl
  rw [collapseStaticOneDims]
  simp only [if_neg hnil, if_neg (not_lt.mpr (Int.natCast_nonneg m))]
  rcases hf : (sizes.zipIdx.filter fun d => d.1 ≠ 1).head? with _ | first
  · rw [List.head?_eq_none_iff] at hf
    rw [hf] at hlen
    exact absurd (List.length_eq_zero_iff.mp hlen.symm) hne
  · rcases hl : (sizes.zipIdx.filter fun d => d.1 ≠ 1).getLast? with _ | last
    · rw [List.getLast?_eq_none_iff] at hl
      rw [hl] at hf
      cases hf
    · have hfirst := List.mem_filter.mp (List.mem_of_head? hf)
      have hlast := List.mem_filter.mp (List.mem_of_getLast? hl)
      have hnum : ((sizes.length : ℤ) - min (max (m : ℤ)
          ((sizes.zipIdx.filter fun d => d.1 ≠ 1).length : ℤ)) sizes.length).toNat =
            sizes.length - max m (backbone sizes).length := by
        rw [hlen]
        omega
      simp only [hf, hl, hnum]
      generalize sizes.length - max m (backbone sizes).length = n
      split
      case isTrue hnone =>
        rw [keepDims, List.zipIdx_map_fst]
        rcases hnone with rfl | hall
        · rw [dropOnes_zero]
        · refine (dropOnes_of_forall_ne (fun x hx => ?_) n).symm
          obtain ⟨d, hd, rfl⟩ := List.mem_map.mp (List.zipIdx_map_fst 0 sizes ▸ hx)
          simpa using List.all_eq_true.mp hall d hd
      case isFalse =>
        have hflags := removeFlags_eq (n := n) (mem_zipIdx_iff hfirst.1).2 (mem_zipIdx_iff hlast.1).2
          (by simpa using hfirst.2) (by simpa using hlast.2)
          (head_le_getLast List.filter_sublist hf hl)
        rw [hflags, keepDims, ← filter_zipIdx_eq_dropOnes sizes n 0]
        simp only [List.mem_reverse]

theorem collapse_ones {sizes : List ℤ} (hnil : sizes ≠ []) (hback : backbone sizes = []) (m : ℕ) :
    (collapseStaticOneDims sizes m).sizes = [1] := by
  have hlen := length_nonOnes sizes
  rw [hback, List.length_nil, List.length_eq_zero_iff] at hlen
  rw [collapseStaticOneDims]
  simp only [if_neg hnil, if_neg (not_lt.mpr (Int.natCast_nonneg m)), hlen, List.head?_nil]

/-- What is left out of a list of sizes are ones. -/
theorem rankReduced_dropOnes (n : ℕ) (sizes : List ℤ) :
    rankReduced sizes (dropOnes n sizes) = true := by
  rw [rankReduced_iff]
  induction sizes generalizing n with
  | nil => cases n <;> exact ⟨List.Sublist.refl _, rfl⟩
  | cons m ms ih =>
    cases n with
    | zero => exact ⟨List.Sublist.refl _, rfl⟩
    | succ n =>
      rw [dropOnes]
      split
      case isTrue hone =>
        obtain ⟨hsub, hback⟩ := ih n
        exact ⟨hsub.cons _, by rw [backbone_cons, if_pos hone, hback]⟩
      case isFalse hone =>
        obtain ⟨hsub, hback⟩ := ih (n + 1)
        exact ⟨hsub.cons_cons _, by rw [backbone_cons, backbone_cons, if_neg hone, if_neg hone, hback]⟩

/-- Without all of its ones a list of sizes is its backbone. -/
theorem dropOnes_eq_backbone {n : ℕ} {sizes : List ℤ}
    (h : sizes.length ≤ n + (backbone sizes).length) : dropOnes n sizes = backbone sizes := by
  induction sizes generalizing n with
  | nil => cases n <;> rfl
  | cons m ms ih =>
    have hle := length_backbone_le ms
    rw [backbone_cons] at h ⊢
    cases n with
    | zero =>
      split at h
      · rw [List.length_cons] at h
        omega
      case isFalse hone =>
        rw [if_neg hone, dropOnes_zero, ← ih (n := 0) (by simpa using h), dropOnes_zero]
    | succ n =>
      rw [dropOnes]
      split at h
      case isTrue hone =>
        rw [if_pos hone, if_pos hone, ih (by rw [List.length_cons] at h; omega)]
      case isFalse hone =>
        rw [if_neg hone, if_neg hone, ih (by rw [List.length_cons, List.length_cons] at h; omega)]

end Collapse

end TileLangNpuir.DevTensor
