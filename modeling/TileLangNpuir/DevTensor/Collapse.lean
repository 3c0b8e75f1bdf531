import TileLangNpuir.DevTensor.Copy
import TileLangNpuir.Lib.DropFirst

/-!
# Dropping dimensions of size one

`CollapseStaticOneDims` of `src/target/codegen_npuir_dev.cc` on sizes of which some are known only
at run time. Such a size is never taken for a one.
-/

namespace TileLangNpuir.DevTensor.Mixed

open RowMajor

/-- `OpFoldResult`: a number, or the name of a value. -/
inductive OpFoldResult : Type where
  | attr (n : ℤ)
  | value (v : ℕ)
  deriving DecidableEq

/-- `ShapedType::kDynamic`. -/
def kDynamic : ℤ := -2 ^ 63

namespace OpFoldResult

/-- `IsStaticOneOFR`. -/
def isStaticOne : OpFoldResult → Bool
  | attr n => n = 1
  | value _ => false

/-- The entry of `projected`. -/
def projected : OpFoldResult → ℤ
  | attr n => n
  | value _ => kDynamic

/-- The size, when the values are known. -/
def eval (σ : ℕ → ℤ) : OpFoldResult → ℤ
  | attr n => n
  | value v => σ v

end OpFoldResult

open OpFoldResult

/-- A size with the index of its dimension. -/
abbrev MixedDim : Type := OpFoldResult × ℕ

/-- `CollapsedDims`. -/
structure CollapsedDims : Type where
  sizes : List OpFoldResult
  projected : List ℤ
  keptIdx : List ℕ
  deriving DecidableEq

/-- The dimensions that stay. -/
def keepDims (dims : List MixedDim) : CollapsedDims :=
  ⟨dims.map Prod.fst, dims.map fun d => d.1.projected, dims.map Prod.snd⟩

/-- `isOneFlags`: a one for a static one. `removeByRange` looks at nothing else. -/
def isOneFlags (dims : List MixedDim) : List Dim :=
  dims.map fun d => (if d.1.isStaticOne then 1 else 0, d.2)

/-- `CollapseStaticOneDims`. -/
def collapseStaticOneDims (fullSizes : List OpFoldResult) (maxRank : ℤ) : CollapsedDims :=
  let dims : List MixedDim := fullSizes.zipIdx
  let nonOnes := dims.filter fun d => !d.1.isStaticOne
  let rank : ℤ := fullSizes.length
  if rank = 0 then ⟨[], [], []⟩
  else if maxRank < 0 then
    let out := keepDims nonOnes
    if out.sizes = [] then ⟨[attr 1], [1], [0]⟩ else out
  else
    match nonOnes.head?, nonOnes.getLast? with
    | some firstNonOne, some lastNonOne =>
      let maxRank := if maxRank < nonOnes.length then (nonOnes.length : ℤ) else maxRank
      let maxRank := if rank < maxRank then rank else maxRank
      let numToRemove := rank - maxRank
      if numToRemove ≤ 0 ∨ dims.all (fun d => !d.1.isStaticOne) then keepDims dims
      else
        let removed := removeFlags (isOneFlags dims) firstNonOne.2 lastNonOne.2 numToRemove.toNat
        keepDims (dims.filter fun d => d.2 ∉ removed)
    | _, _ => ⟨[attr 1], [1], [0]⟩

/-! ## What is kept -/

/-- The requested rank, between the number of dimensions that are not a one and the rank. -/
def clampRank (sizes : List OpFoldResult) (maxRank : ℤ) : ℤ :=
  max (sizes.countP fun s => !s.isStaticOne : ℕ) (min maxRank sizes.length)

/-- Some dimensions of `sizes` are kept, in order: all that are not a one, so many as `rank` says,
and as many elements as there were. -/
structure Collapses (sizes : List OpFoldResult) (out : CollapsedDims) (rank : ℤ) : Prop where
  idx : out.keptIdx.Sublist (List.range sizes.length)
  kept : out.keptIdx.map (fun i => sizes[i]?) = out.sizes.map some
  projected : out.projected = out.sizes.map OpFoldResult.projected
  nonOnes : ∀ (i : ℕ) s, sizes[i]? = some s → s.isStaticOne = false → i ∈ out.keptIdx
  rank : (out.keptIdx.length : ℤ) = rank
  elements : ∀ σ, (out.sizes.map (eval σ)).prod = (sizes.map (eval σ)).prod

section

variable {sizes : List OpFoldResult} {maxRank : ℤ} {n : ℕ}

theorem eval_of_isStaticOne {s : OpFoldResult} (h : s.isStaticOne = true) (σ : ℕ → ℤ) :
    s.eval σ = 1 := by
  cases s with
  | attr n => simpa [isStaticOne, eval] using h
  | value v => cases h

theorem countP_isStaticOne (sizes : List OpFoldResult) :
    (sizes.countP fun s => !s.isStaticOne) + sizes.countP isStaticOne = sizes.length := by
  have h := List.length_eq_countP_add_countP isStaticOne (l := sizes)
  simp only [Bool.not_eq_true, Bool.decide_eq_false] at h
  omega

theorem countP_zipIdx (p : OpFoldResult → Bool) (sizes : List OpFoldResult) (k : ℕ) :
    (sizes.zipIdx k).countP (fun d => p d.1) = sizes.countP p := by
  conv_rhs => rw [← List.zipIdx_map_fst k sizes, List.countP_map]
  rfl

/-- The first ones can be left out, as far as there are any. -/
theorem collapses_dropFirst (h : n ≤ sizes.countP isStaticOne) :
    Collapses sizes (keepDims (dropFirst (fun d => d.1.isStaticOne) n sizes.zipIdx))
      (sizes.length - n) := by
  have hsub := dropFirst_sublist (fun d : MixedDim => d.1.isStaticOne) n sizes.zipIdx
  refine ⟨?_, ?_, ?_, ?_, ?_, fun σ => ?_⟩
  · have hidx := hsub.map Prod.snd
    rwa [List.zipIdx_map_snd, ← List.range_eq_range'] at hidx
  · simp only [keepDims, List.map_map]
    refine List.map_congr_left fun d hd => ?_
    exact List.mem_zipIdx_iff_getElem?.mp (hsub.subset hd)
  · rw [keepDims, List.map_map]
    rfl
  · intro i s hs hone
    have hmem : (s, i) ∈ sizes.zipIdx := List.mem_zipIdx_iff_getElem?.mpr hs
    exact List.mem_map_of_mem (mem_dropFirst_of_not hmem (by simp [hone]))
  · have hlen := length_dropFirst (p := fun d : MixedDim => d.1.isStaticOne) (l := sizes.zipIdx)
      (n := n) (by rwa [countP_zipIdx])
    rw [List.length_zipIdx] at hlen
    rw [keepDims, List.length_map]
    omega
  · rw [keepDims, List.map_map]
    have hone : ∀ d ∈ sizes.zipIdx, d.1.isStaticOne = true → d.1.eval σ = 1 := fun d _ hd =>
      eval_of_isStaticOne hd σ
    refine (prod_map_dropFirst hone n).trans ?_
    conv_rhs => rw [← List.zipIdx_map_fst 0 sizes, List.map_map]
    rfl

/-- What the flags say are ones. -/
theorem ones_isOneFlags (dims : List MixedDim) :
    (ones (isOneFlags dims)).map Prod.snd = (dims.filter fun d => d.1.isStaticOne).map Prod.snd := by
  rw [ones, isOneFlags, List.filter_map, List.map_map]
  refine congrArg _ (List.filter_congr fun d _ => ?_)
  cases hd : d.1.isStaticOne <;> simp [hd]

/-- The flag of a dimension that is not a one. -/
theorem getElem?_isOneFlags {d : MixedDim}
    (h : d ∈ sizes.zipIdx.filter fun d => !d.1.isStaticOne) :
    (isOneFlags sizes.zipIdx)[d.2]? = some (0, d.2) := by
  obtain ⟨hmem, hone⟩ := List.mem_filter.mp h
  have hone : d.1.isStaticOne = false := by simpa using hone
  have hget : sizes.zipIdx[d.2]? = some d := (mem_zipIdx_iff hmem).2
  rw [isOneFlags, List.getElem?_map, hget, Option.map_some, hone]
  rfl

theorem removeFlags_isOneFlags {first last : MixedDim}
    (hfirst : first ∈ sizes.zipIdx.filter fun d => !d.1.isStaticOne)
    (hlast : last ∈ sizes.zipIdx.filter fun d => !d.1.isStaticOne) (hle : first.2 ≤ last.2)
    (n : ℕ) : removeFlags (isOneFlags sizes.zipIdx) first.2 last.2 n =
      (((sizes.zipIdx.filter fun d => d.1.isStaticOne).map Prod.snd).take n).reverse := by
  have hf : (isOneFlags sizes.zipIdx)[((0, first.2) : Dim).2]? = some (0, first.2) :=
    getElem?_isOneFlags hfirst
  have hl : (isOneFlags sizes.zipIdx)[((0, last.2) : Dim).2]? = some (0, last.2) :=
    getElem?_isOneFlags hlast
  have hflags := removeFlags_eq (n := n) hf hl Int.zero_ne_one Int.zero_ne_one hle
  rwa [List.map_take, ones_isOneFlags] at hflags

/-- The two clamps. -/
theorem clamp_eq {a b m : ℤ} (h : a ≤ b) :
    (if b < (if m < a then a else m) then b else if m < a then a else m) = max a (min m b) := by
  omega

theorem collapse_eq_dropFirst (hne : (sizes.countP fun s => !s.isStaticOne) ≠ 0) :
    collapseStaticOneDims sizes maxRank = keepDims (dropFirst (fun d => d.1.isStaticOne)
      (sizes.length - clampRank sizes maxRank).toNat sizes.zipIdx) := by
  have hcount := countP_isStaticOne sizes
  have hlen : (sizes.zipIdx.filter fun d : MixedDim => !d.1.isStaticOne).length =
      sizes.countP fun s => !s.isStaticOne := by
    rw [← List.countP_eq_length_filter, countP_zipIdx (fun s => !s.isStaticOne)]
  have hpos : (sizes.length : ℤ) ≠ 0 := by omega
  rw [collapseStaticOneDims]
  simp only [if_neg hpos]
  split
  · rename_i hneg
    -- every one is left out
    have hall : (sizes.length - clampRank sizes maxRank).toNat =
        (sizes.zipIdx.countP fun d : MixedDim => d.1.isStaticOne) := by
      rw [countP_zipIdx isStaticOne, clampRank]
      omega
    have hout : keepDims (sizes.zipIdx.filter fun d : MixedDim => !d.1.isStaticOne) =
        keepDims (dropFirst (fun d => d.1.isStaticOne)
          (sizes.length - clampRank sizes maxRank).toNat sizes.zipIdx) := by
      rw [hall, dropFirst_countP]
    rw [← hout, if_neg]
    intro hnil
    rw [keepDims, List.map_eq_nil_iff] at hnil
    rw [hnil] at hlen
    exact hne hlen.symm
  · rename_i hneg
    cases hf : (sizes.zipIdx.filter fun d : MixedDim => !d.1.isStaticOne).head? with
    | none =>
      rw [List.head?_eq_none_iff.mp hf] at hlen
      exact absurd hlen.symm hne
    | some first =>
      cases hl : (sizes.zipIdx.filter fun d : MixedDim => !d.1.isStaticOne).getLast? with
      | none =>
        rw [List.getLast?_eq_none_iff.mp hl] at hlen
        exact absurd hlen.symm hne
      | some last =>
        dsimp only
        have hclamp : clampRank sizes maxRank = max _ _ := rfl
        rw [hlen, clamp_eq (by omega), ← hclamp]
        split
        · rename_i hnone
          rcases hnone with hle | hall
          · rw [Int.toNat_eq_zero.mpr hle, dropFirst_zero]
          · rw [dropFirst_of_forall_not fun d hd => ?_]
            simpa using List.all_eq_true.mp hall d hd
        · -- the flags tell the same dimensions apart as the sizes
          have hflags := removeFlags_isOneFlags (List.mem_of_head? hf) (List.mem_of_getLast? hl)
            (head_le_getLast List.filter_sublist hf hl)
            (sizes.length - clampRank sizes maxRank).toNat
          have hkeys : (sizes.zipIdx.map Prod.snd).Nodup := by
            rw [List.zipIdx_map_snd]
            exact List.nodup_range'
          rw [hflags, ← filter_notMem_eq_dropFirst Prod.snd hkeys, List.map_take]
          simp only [List.mem_reverse]

theorem collapse_of_all_ones (hne : sizes ≠ []) (hones : ∀ s ∈ sizes, s.isStaticOne = true) :
    collapseStaticOneDims sizes maxRank = ⟨[attr 1], [1], [0]⟩ := by
  have hlen : (sizes.length : ℤ) ≠ 0 := by
    have := List.length_pos_iff.mpr hne
    omega
  have hnone : (sizes.zipIdx.filter fun d : MixedDim => !d.1.isStaticOne) = [] := by
    refine List.filter_eq_nil_iff.mpr fun d hd => ?_
    simp [hones d.1 (List.fst_mem_of_mem_zipIdx hd)]
  rw [collapseStaticOneDims]
  simp only [if_neg hlen, hnone, keepDims, List.map_nil, if_true, List.head?_nil, ite_self]

theorem collapses_of_all_ones (hne : sizes ≠ []) (hones : ∀ s ∈ sizes, s.isStaticOne = true) :
    Collapses sizes ⟨[attr 1], [1], [0]⟩ 1 := by
  refine ⟨?_, ?_, rfl, fun i s hs hone => ?_, rfl, fun σ => ?_⟩
  · rw [List.singleton_sublist, List.mem_range]
    exact List.length_pos_iff.mpr hne
  · cases sizes with
    | nil => exact absurd rfl hne
    | cons s sizes =>
      have hs := hones s List.mem_cons_self
      cases s with
      | attr n =>
        obtain rfl : n = 1 := by simpa [isStaticOne] using hs
        rfl
      | value v => cases hs
  · rw [hones s (List.mem_of_getElem? hs)] at hone
    cases hone
  · refine (List.prod_eq_one fun x hx => ?_).symm
    obtain ⟨s, hs, rfl⟩ := List.mem_map.mp hx
    exact eval_of_isStaticOne (hones s hs) σ

/-- Only ones are left out, down to the requested rank; dimensions that are all ones become a
single one. -/
theorem collapse_dropsOnes (sizes : List OpFoldResult) (maxRank : ℤ) :
    Collapses sizes (collapseStaticOneDims sizes maxRank)
      (if sizes ≠ [] ∧ ∀ s ∈ sizes, s.isStaticOne = true then 1 else clampRank sizes maxRank) := by
  split
  · rename_i hones
    rw [collapse_of_all_ones hones.1 hones.2]
    exact collapses_of_all_ones hones.1 hones.2
  · rename_i hsome
    by_cases hnil : sizes = []
    · subst hnil
      have hclamp : clampRank [] maxRank = 0 := by
        simp [clampRank]
      rw [hclamp]
      exact collapses_dropFirst (n := 0) le_rfl
    · have hne : (sizes.countP fun s => !s.isStaticOne) ≠ 0 := by
        refine fun hzero => hsome ⟨hnil, fun s hs => ?_⟩
        simpa using List.countP_eq_zero.mp hzero s hs
      have hcount := countP_isStaticOne sizes
      rw [collapse_eq_dropFirst hne]
      have hle : (sizes.length - clampRank sizes maxRank).toNat ≤ sizes.countP isStaticOne := by
        rw [clampRank]
        omega
      have hrank : (sizes.length : ℤ) - (sizes.length - clampRank sizes maxRank).toNat =
          clampRank sizes maxRank := by
        rw [clampRank]
        omega
      have h := collapses_dropFirst hle
      rwa [hrank] at h

/-- Two ones become a single one even if two dimensions are asked for. -/
theorem collapse_two_ones : ¬∀ (sizes : List OpFoldResult) (maxRank : ℤ),
    ((collapseStaticOneDims sizes maxRank).keptIdx.length : ℤ) = clampRank sizes maxRank := by
  intro h
  have h := h [attr 1, attr 1] 2
  exact absurd h (by decide)

theorem dropOnes_eq_dropFirst (n : ℕ) (ns : List ℤ) :
    dropOnes n ns = dropFirst (fun m => decide (m = 1)) n ns := by
  induction ns generalizing n with
  | nil => cases n <;> rfl
  | cons m ns ih =>
    cases n with
    | zero => rfl
    | succ n =>
      rw [dropOnes, dropFirst, ih, ih]
      simp only [decide_eq_true_eq]

theorem countP_attr (ns : List ℤ) :
    ((ns.map attr).countP fun s => !s.isStaticOne) = (backbone ns).length := by
  rw [List.countP_map, backbone, ← List.countP_eq_length_filter]
  refine List.countP_congr fun n _ => ?_
  simp [isStaticOne]

/-- With static sizes the dimensions are those of the model of the copies. -/
theorem collapse_attr (ns : List ℤ) (m : ℕ) :
    (collapseStaticOneDims (ns.map attr) m).projected =
      (DevTensor.collapseStaticOneDims ns m).sizes := by
  have hcount := countP_attr ns
  by_cases hnil : ns = []
  · subst hnil
    rfl
  · by_cases hback : backbone ns = []
    · rw [hback, List.length_nil, List.countP_eq_zero] at hcount
      rw [collapse_ones hnil hback, collapse_of_all_ones (by simpa using hnil)]
      exact fun s hs => by simpa using hcount s hs
    · have hne : ((ns.map attr).countP fun s => !s.isStaticOne) ≠ 0 := by
        rw [hcount]
        exact fun hzero => hback (List.length_eq_zero_iff.mp hzero)
      have hdrop : ((ns.map attr).length - clampRank (ns.map attr) m).toNat =
          ns.length - max m (backbone ns).length := by
        rw [clampRank, hcount, List.length_map]
        have := length_backbone_le ns
        omega
      rw [collapse_eq_dropFirst hne, collapse_sizes hback, hdrop, dropOnes_eq_dropFirst]
      generalize ns.length - max m (backbone ns).length = n
      simp only [keepDims, List.zipIdx_map, dropFirst_map, List.map_map]
      conv_rhs => rw [← List.zipIdx_map_fst 0 ns, dropFirst_map]
      rfl

end

end TileLangNpuir.DevTensor.Mixed
