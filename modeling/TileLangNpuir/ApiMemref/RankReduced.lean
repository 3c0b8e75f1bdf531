import TileLangNpuir.ApiMemref.Binary
import TileLangNpuir.DevTensor.Collapse
import TileLangNpuir.Lib.Strided

/-!
# Rank-reduced views of regions

`GenRankReducedSubviewFromRegion` of `src/target/codegen_npuir_api.cc`, on extents and offsets of
which some are known only at run time. The view leaves out leading dimensions of size one, down to
a least rank; a region that is the whole buffer, of which no dimension is left out, is the buffer.
-/

namespace TileLangNpuir.ApiMemref

open RowMajor DevTensor.Mixed DevTensor.Mixed.OpFoldResult

/-- A memref with a strided layout. -/
structure Memref : Type where
  offset : ℤ
  shape : List OpFoldResult
  strides : List ℤ
  rank : strides.length = shape.length

namespace Memref

/-- The addresses of its elements in row-major order, once the dynamic sizes are known. -/
def elements (σ : ℕ → ℤ) (m : Memref) : List ℤ :=
  (points (m.shape.map (eval σ))).map fun p => m.offset + addr m.strides p

/-- The addresses of a region's elements: a range is a minimum and an extent. -/
def region (σ : ℕ → ℤ) (m : Memref) (range : List (OpFoldResult × OpFoldResult)) : List ℤ :=
  (points (range.map fun r => r.2.eval σ)).map fun p =>
    m.offset + addr m.strides (List.zipWith (· + ·) (range.map fun r => r.1.eval σ) p)

/-- `SubViewOp` with unit strides. -/
def subview (σ : ℕ → ℤ) (m : Memref) (offsets sizes : List OpFoldResult)
    (h : sizes.length = m.shape.length) : Memref :=
  ⟨m.offset + addr m.strides (offsets.map (eval σ)), sizes, m.strides, m.rank.trans h.symm⟩

/-- The type that is projected through the kept dimensions. -/
def project (m : Memref) (keptDims : List ℕ) : Memref :=
  ⟨m.offset, keptDims.map fun d => m.shape.getD d (attr 1), keptDims.map fun d => m.strides.getD d 0,
    by rw [List.length_map, List.length_map]⟩

end Memref

/-- `IsEqual`: only numbers are equal. -/
def isEqual : List OpFoldResult → List OpFoldResult → Bool
  | [], [] => true
  | attr m :: xs, attr n :: ys => m = n && isEqual xs ys
  | _, _ => false

/-- `AllZero`. -/
def allZero (xs : List OpFoldResult) : Bool := xs.all fun x => x = attr 0

/-- `keptDims`: leading ones are dropped as far as `min_rank` allows; one dimension stays. -/
def keptDims (sizes : List OpFoldResult) (minRank : ℤ) : List ℕ :=
  let numNonStatic1 := sizes.countP fun s => !s.isStaticOne
  let totalStatic1 := sizes.length - numNonStatic1
  let static1ToKeep := max 0 (minRank - numNonStatic1)
  let static1ToDrop := max 0 (totalStatic1 - static1ToKeep)
  let kept := dropFirst (fun d : MixedDim => d.1.isStaticOne) static1ToDrop.toNat sizes.zipIdx
  if kept = [] then [sizes.length - 1] else kept.map Prod.snd

/-- `GenRankReducedSubviewFromRegion`. The offsets and sizes have the rank of the memref. -/
def genRankReducedSubviewFromRegion (σ : ℕ → ℤ) (base : Memref)
    (range : List (OpFoldResult × OpFoldResult)) (minRank : ℤ) : Option Memref :=
  if h : range ≠ [] ∧ range.length = base.shape.length then
    let offsets := range.map Prod.fst
    let sizes := range.map Prod.snd
    let isFullRegion := isEqual base.shape sizes && allZero offsets
    let kept := keptDims sizes minRank
    if isFullRegion = true ∧ kept.length = base.shape.length then some base
    else
      let full := base.subview σ offsets sizes (by rw [List.length_map]; exact h.2)
      some (if kept.length = full.shape.length then full else full.project kept)
  else none

/-! ## What is kept -/

section

variable {sizes : List OpFoldResult} {minRank : ℤ}

theorem isEqual_iff {xs ys : List OpFoldResult} (h : isEqual xs ys = true) : xs = ys := by
  induction xs generalizing ys with
  | nil =>
    cases ys with
    | nil => rfl
    | cons y ys => cases h
  | cons x xs ih =>
    cases ys with
    | nil => cases x <;> cases h
    | cons y ys =>
      cases x with
      | value v => cases h
      | attr m =>
        cases y with
        | value v => cases h
        | attr n =>
          rw [isEqual, Bool.and_eq_true, decide_eq_true_eq] at h
          rw [h.1, ih h.2]

/-- The kept dimensions are increasing, all that are not a one are among them, and there are as
many as asked for, or as are needed. -/
structure Keeps (sizes : List OpFoldResult) (minRank : ℤ) (kept : List ℕ) : Prop where
  sublist : kept.Sublist (List.range sizes.length)
  nonOnes : ∀ (i : ℕ) s, sizes[i]? = some s → s.isStaticOne = false → i ∈ kept
  rank : (kept.length : ℤ) =
    max ((sizes.countP fun s => !s.isStaticOne : ℕ) : ℤ) (max 1 (min minRank sizes.length))

theorem keeps_keptDims (hne : sizes ≠ []) : Keeps sizes minRank (keptDims sizes minRank) := by
  have hpos := List.length_pos_iff.mpr hne
  have hcount := countP_isStaticOne sizes
  rw [keptDims]
  generalize hn : (max 0 (((sizes.length - sizes.countP fun s => !s.isStaticOne : ℕ) : ℤ) -
    max 0 (minRank - (sizes.countP fun s => !s.isStaticOne : ℕ)))).toNat = n
  have hle : n ≤ sizes.countP isStaticOne := by omega
  obtain ⟨hidx, -, -, hnon, hrank, -⟩ := collapses_dropFirst hle
  simp only [keepDims] at hidx hnon hrank
  split
  · rename_i hnil
    rw [hnil] at hrank hnon
    refine ⟨?_, fun i s hs hone => absurd (hnon i s hs hone) List.not_mem_nil, ?_⟩
    · rw [List.singleton_sublist, List.mem_range]
      omega
    · simp only [List.map_nil, List.length_nil] at hrank
      simp only [List.length_singleton]
      omega
  · rename_i hsome
    have hkept : 0 < (dropFirst (fun d : MixedDim => d.1.isStaticOne) n sizes.zipIdx).length :=
      List.length_pos_iff.mpr hsome
    rw [List.length_map] at hrank
    refine ⟨hidx, hnon, ?_⟩
    rw [List.length_map]
    omega

/-- With static sizes the dimensions are those of the views of the vector ops. -/
theorem keptDims_attr (ns : List ℤ) (m : ℕ) :
    keptDims (ns.map attr) m = (reducedDims ns m).map Prod.snd := by
  have hcount : ((ns.map attr).countP fun s => !s.isStaticOne) = ns.countP fun n => n ≠ 1 := by
    rw [List.countP_map]
    refine List.countP_congr fun n _ => ?_
    simp [isStaticOne]
  have hdrop : (max 0 (((ns.length - ns.countP fun n => n ≠ 1 : ℕ) : ℤ) -
      max 0 ((m : ℤ) - (ns.countP fun n => n ≠ 1 : ℕ)))).toNat =
        ns.length - (ns.countP fun n => n ≠ 1) - (m - ns.countP fun n => n ≠ 1) := by
    omega
  have hones : (fun d : ℤ × ℕ => (Prod.map attr id d).1.isStaticOne) = fun d => decide (d.1 = 1) := rfl
  rw [keptDims, reducedDims, hcount, List.length_map, hdrop, List.zipIdx_map, dropFirst_map, hones]
  simp only [List.map_eq_nil_iff, List.map_map]
  split
  · rfl
  · rfl

end

/-! ## Views -/

section

variable {σ : ℕ → ℤ} {base m : Memref} {range : List (OpFoldResult × OpFoldResult)} {minRank : ℤ}

theorem elements_eq (σ : ℕ → ℤ) (m : Memref) :
    m.elements σ = (addresses ((m.shape.map (eval σ)).zip m.strides)).map (m.offset + ·) := by
  have hlen : (m.shape.map (eval σ)).length = m.strides.length := by
    rw [List.length_map, m.rank]
  rw [Memref.elements, addresses, List.map_map, List.map_fst_zip hlen.le, List.map_snd_zip hlen.ge]
  rfl

theorem elements_subview (hrank : range.length = m.shape.length) :
    (m.subview σ (range.map Prod.fst) (range.map Prod.snd) (by rwa [List.length_map])).elements σ =
      m.region σ range := by
  rw [Memref.elements, Memref.region]
  simp only [Memref.subview, List.map_map]
  refine List.map_congr_left fun p hp => ?_
  have hbox := List.Forall₂.length_eq (mem_points_iff.mp hp)
  rw [List.length_map] at hbox
  have hmins : (range.map fun r => r.1.eval σ).length = m.strides.length := by
    rw [List.length_map, hrank, m.rank]
  rw [addr_add hmins (by rw [← hbox, hrank, m.rank]), add_assoc]
  rfl

/-- The dimensions of a memref by their indices. -/
theorem zip_eq_map_range (σ : ℕ → ℤ) (m : Memref) : (m.shape.map (eval σ)).zip m.strides =
    (List.range m.shape.length).map fun i =>
      ((m.shape.getD i (attr 1)).eval σ, m.strides.getD i 0) := by
  refine List.ext_getElem ?_ fun i hi hi' => ?_
  · simp [m.rank]
  · have hlt : i < m.shape.length := by simpa [m.rank] using hi
    have hlt' : i < m.strides.length := by rwa [m.rank]
    simp [hlt, hlt']

/-- Dimensions that are not kept have size one. -/
theorem elements_project {kept : List ℕ} (h : kept.Sublist (List.range m.shape.length))
    (hnon : ∀ (i : ℕ) s, m.shape[i]? = some s → s.isStaticOne = false → i ∈ kept) :
    (m.project kept).elements σ = m.elements σ := by
  rw [elements_eq, elements_eq, zip_eq_map_range σ m]
  have hdims : ((m.project kept).shape.map (eval σ)).zip (m.project kept).strides =
      kept.map fun i => ((m.shape.getD i (attr 1)).eval σ, m.strides.getD i 0) := by
    simp only [Memref.project, List.map_map]
    rw [List.zip_map']
    rfl
  rw [hdims]
  refine congrArg _ (addresses_of_drops (drops_of_sublist _ h List.nodup_range ?_)).symm
  intro i hi hnot
  have hlt := List.mem_range.mp hi
  have hget : m.shape[i]? = some m.shape[i] := List.getElem?_eq_getElem hlt
  have hone : m.shape[i].isStaticOne = true := by
    by_contra hfalse
    exact hnot (hnon i _ hget (by simpa using hfalse))
  dsimp only
  rw [List.getD_eq_getElem?_getD, hget, Option.getD_some]
  exact eval_of_isStaticOne hone σ

/-- A view of a region: the kept dimensions with their sizes and strides, the offset of all
dimensions, and the elements of the region in row-major order. -/
structure IsViewOf (σ : ℕ → ℤ) (base : Memref) (range : List (OpFoldResult × OpFoldResult))
    (kept : List ℕ) (view : Memref) : Prop where
  shape : view.shape = kept.map fun d => (range.map Prod.snd).getD d (attr 1)
  strides : view.strides = kept.map fun d => base.strides.getD d 0
  offset : view.offset = base.offset + addr base.strides (range.map fun r => r.1.eval σ)
  elements : view.elements σ = base.region σ range

theorem allZero_iff {xs : List OpFoldResult} (h : allZero xs = true) :
    ∀ x ∈ xs.map (eval σ), x = 0 := by
  intro x hx
  obtain ⟨y, hy, rfl⟩ := List.mem_map.mp hx
  have hzero := List.all_eq_true.mp h y hy
  rw [decide_eq_true_eq] at hzero
  rw [hzero]
  rfl

theorem map_getD_range {α : Type} (l : List α) (d : α) :
    ((List.range l.length).map fun i => l.getD i d) = l := by
  refine List.ext_getElem (by simp) fun i hi hi' => ?_
  simp [hi']

/-- All dimensions are kept. -/
theorem isViewOf_subview (hrank : range.length = base.shape.length) :
    IsViewOf σ base range (List.range range.length) (base.subview σ (range.map Prod.fst)
      (range.map Prod.snd) (by rwa [List.length_map])) := by
  refine ⟨?_, ?_, ?_, elements_subview hrank⟩
  · have hmap := map_getD_range (range.map Prod.snd) (attr 1)
    rw [List.length_map] at hmap
    exact hmap.symm
  · have hmap := map_getD_range base.strides 0
    rw [base.rank, ← hrank] at hmap
    exact hmap.symm
  · rw [Memref.subview, List.map_map]
    rfl

/-- A buffer is the view of its whole region. -/
theorem isViewOf_base (hshape : base.shape = range.map Prod.snd)
    (hzero : allZero (range.map Prod.fst) = true) :
    IsViewOf σ base range (List.range range.length) base := by
  have hrank : range.length = base.shape.length := by rw [hshape, List.length_map]
  have hview := isViewOf_subview (σ := σ) hrank
  have haddr : addr base.strides ((range.map Prod.fst).map (eval σ)) = 0 :=
    addr_of_zeros _ (allZero_iff hzero)
  refine ⟨hshape.trans hview.shape, hview.strides, ?_, ?_⟩
  · rw [← hview.offset, Memref.subview, haddr, add_zero]
  · rw [← hview.elements]
    simp only [Memref.elements, Memref.subview, haddr, add_zero, hshape]

end

end TileLangNpuir.ApiMemref
