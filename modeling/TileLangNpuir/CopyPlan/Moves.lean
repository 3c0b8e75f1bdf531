import TileLangNpuir.CopyPlan.Align

/-!
# A generic copy moves its region

The view that planning gives one side has the elements of that side's region, in row-major
order: what a dropped dimension adds to the offset is in the offset of the view. Both views have
the same sizes, so `memref.copy` moves the elements one by one.
-/

namespace TileLangNpuir.CopyPlan

open TileLangNpuir.RowMajor

variable {Env : Type} {env : Env}

/-! ## Scalars -/

@[simp]
theorem eval_foldExpr (e : PrimExpr Env) : (foldExpr e).eval env = e.eval env := by
  cases e <;> rfl

@[simp]
theorem extractStaticShapeDim_foldExpr (e : PrimExpr Env) :
    extractStaticShapeDim (foldExpr e) = asConstInt e := by
  cases e <;> rfl

@[simp]
theorem eval_materialize (r : OpFoldResult Env) :
    (materializeIndexFoldResult r).eval env = r.eval env := by
  cases r <;> rfl

/-- `Simplify` keeps the value. -/
def Context.Sound (ctx : Context Env) (env : Env) : Prop :=
  ∀ e, (ctx.simplify e).eval env = e.eval env

theorem eval_contiguousStrides {ctx : Context Env} (h : ctx.Sound env) (shape : List (PrimExpr Env)) :
    (contiguousStrides ctx shape).1.map (PrimExpr.eval env)
        = contiguous (shape.map (PrimExpr.eval env)) ∧
      (contiguousStrides ctx shape).2.eval env = (shape.map (PrimExpr.eval env)).prod := by
  induction shape with
  | nil => exact ⟨rfl, rfl⟩
  | cons n ns ih =>
    simp only [contiguousStrides, List.map_cons, contiguous, List.prod_cons]
    refine ⟨?_, ?_⟩
    · rw [h, ih.1, ih.2]
    · rw [h, PrimExpr.eval, ih.2]

/-- The strides that the facts hold are those of an array without gaps. -/
theorem eval_strideValues {ctx : Context Env} (h : ctx.Sound env) (shape : List (PrimExpr Env)) :
    (buildIndexFoldResultsFromExprs ctx (buildContiguousStrideExprs ctx shape)).map
      (OpFoldResult.eval env) = contiguous (shape.map (PrimExpr.eval env)) := by
  rw [← (eval_contiguousStrides h shape).1, buildIndexFoldResultsFromExprs, List.map_map]
  refine List.map_congr_left fun e _ => ?_
  exact (eval_foldExpr _).trans (h e)

/-! ## Offsets -/

/-- What the value so far is. -/
def dynamicPart (env : Env) : Option (IndexValue Env) → ℤ
  | some v => v.eval env
  | none => 0

theorem eval_projectedViewOffset (env : Env) (offs strides : List (OpFoldResult Env)) (static : ℤ)
    (dynamic : Option (IndexValue Env)) :
    (projectedViewOffset offs strides static dynamic).1
        + dynamicPart env (projectedViewOffset offs strides static dynamic).2
      = static + dynamicPart env dynamic
        + addr (strides.map (OpFoldResult.eval env)) (offs.map (OpFoldResult.eval env)) := by
  induction offs generalizing strides static dynamic with
  | nil =>
    cases strides <;> simp [projectedViewOffset, addr]
  | cons off offs ih =>
    cases strides with
    | nil => simp [projectedViewOffset, addr]
    | cons stride strides =>
      simp only [List.map_cons, addr]
      unfold projectedViewOffset
      split
      · next o s =>
        rw [ih]
        simp only [OpFoldResult.eval]
        ring
      · split
        · next hzero =>
          have hoff : off.eval env = 0 := by
            cases off with
            | attr n =>
              cases hzero
              rfl
            | value v => cases hzero
          rw [ih, hoff]
          ring
        · have hterm : (if extractStaticShapeDim stride = some 1 then materializeIndexFoldResult off
              else .mulI (materializeIndexFoldResult off) (materializeIndexFoldResult stride)).eval env
                = off.eval env * stride.eval env := by
            split
            · next hone =>
              have hstride : stride.eval env = 1 := by
                cases stride with
                | attr n =>
                  cases hone
                  rfl
                | value v => cases hone
              rw [eval_materialize, hstride, mul_one]
            · rw [IndexValue.eval, eval_materialize, eval_materialize]
          rw [ih]
          cases dynamic with
          | none =>
            simp only [dynamicPart, hterm]
            ring
          | some v =>
            simp only [dynamicPart, IndexValue.eval, hterm]
            ring

/-- `ComputeProjectedViewOffset` counts every offset. -/
theorem eval_computeProjectedViewOffset (base : ℤ) (offs strides : List (OpFoldResult Env)) :
    (computeProjectedViewOffset base offs strides).eval env
      = base + addr (strides.map (OpFoldResult.eval env)) (offs.map (OpFoldResult.eval env)) := by
  have h := eval_projectedViewOffset env offs strides base none
  rw [computeProjectedViewOffset]
  rcases hp : projectedViewOffset offs strides base none with ⟨static, dynamic⟩
  rw [hp] at h
  cases dynamic with
  | none =>
    simp only [dynamicPart, add_zero] at h
    exact h
  | some v =>
    simp only [dynamicPart, add_zero] at h
    rw [← h]
    dsimp only
    split
    · next hzero =>
      rw [hzero, zero_add]
      rfl
    · rfl

theorem eval_foldl_addI (vs : List (IndexValue Env)) (v : IndexValue Env) :
    (vs.foldl .addI v).eval env = v.eval env + (vs.map (IndexValue.eval env)).sum := by
  induction vs generalizing v with
  | nil => simp
  | cons w vs ih =>
    rw [List.foldl_cons, ih, List.map_cons, List.sum_cons, IndexValue.eval]
    ring

theorem sum_zipWith_mul (offs strides : List ℤ) :
    (List.zipWith (fun o s => o * s) offs strides).sum = addr strides offs := by
  induction offs generalizing strides with
  | nil => cases strides <;> rfl
  | cons o offs ih =>
    cases strides with
    | nil => rfl
    | cons s strides => rw [List.zipWith_cons_cons, List.sum_cons, ih, addr]

/-- The offset of a subview. -/
theorem eval_subview_offset (env : Env) (r : MemRef Env) (offsets sizes : List (OpFoldResult Env)) :
    (subview r offsets sizes).offset.eval env
      = r.offset.eval env
        + addr (r.strides.map (OpFoldResult.eval env)) (offsets.map (OpFoldResult.eval env)) := by
  rw [subview, OpFoldResult.eval, eval_foldl_addI, eval_materialize, ← sum_zipWith_mul,
    List.zipWith_map, List.map_zipWith]
  simp only [IndexValue.eval, eval_materialize]

/-! ## Regions -/

/-- What a buffer without explicit strides is at run time: a memref without gaps. -/
structure Contiguous (ctx : Context Env) (env : Env) (buffer : Buffer Env) (base : MemRef Env) : Prop where
  found : ctx.varMap buffer.data = some base
  noStrides : buffer.strides = []
  layout : ∃ strides, base.type.layout = some ⟨some (base.offset.eval env), strides⟩
  rank : base.type.shape.length = buffer.shape.length
  elementType : base.type.elementType = buffer.dtype
  sizes : base.sizes.map (OpFoldResult.eval env) = buffer.shape.map (PrimExpr.eval env)
  strides : base.strides.map (OpFoldResult.eval env) = contiguous (buffer.shape.map (PrimExpr.eval env))

/-- Function arguments are such memrefs. -/
theorem recastParam_contiguous {ctx : Context Env} (hsound : ctx.Sound env) (buffer : Buffer Env)
    (memorySpace : ℕ) (arg : MemRef Env) (hstrides : buffer.strides = [])
    (hfound : ctx.varMap buffer.data = some (recastParam ctx buffer memorySpace arg)) :
    Contiguous ctx env buffer (recastParam ctx buffer memorySpace arg) where
  found := hfound
  noStrides := hstrides
  layout := ⟨_, rfl⟩
  rank := List.length_map _
  elementType := rfl
  sizes := by
    simp only [recastParam, reinterpretCast, buildIndexFoldResultsFromExprs, List.map_map]
    exact List.map_congr_left fun e _ => (eval_foldExpr _).trans (hsound e)
  strides := by
    simp only [recastParam, reinterpretCast, strideExprs, hstrides, if_true]
    exact eval_strideValues hsound buffer.shape

/-- The region lies in the buffer. -/
def InBounds (env : Env) (buffer : Buffer Env) (range : List (Range Env)) : Prop :=
  List.Forall₂ (fun r n => 0 ≤ r.min.eval env ∧ 0 ≤ r.extent.eval env ∧
    r.min.eval env + r.extent.eval env ≤ n.eval env) range buffer.shape

/-- The elements of a region in row-major order. -/
def regionCells (env : Env) (buffer : Buffer Env) (base : MemRef Env) (range : List (Range Env)) :
    List (ℕ × ℤ) :=
  (points (range.map fun r => r.extent.eval env)).map fun p =>
    (base.buffer, base.offset.eval env + flatten (buffer.shape.map (PrimExpr.eval env))
      (List.zipWith (· + ·) (range.map fun r => r.min.eval env) p))

/-- The extents of a region without the static ones. -/
def nonUnitExtents (env : Env) (range : List (Range Env)) : List ℤ :=
  (range.filter fun r => asConstInt r.extent ≠ some 1).map fun r => r.extent.eval env

section

variable {ctx : Context Env} {buffer : Buffer Env} {base : MemRef Env} {range : List (Range Env)}

/-- The same elements as distances from the low corner of the region. -/
theorem regionCells_eq (hlen : range.length = buffer.shape.length) :
    regionCells env buffer base range
      = (addresses (List.zip (range.map fun r => r.extent.eval env)
          (contiguous (buffer.shape.map (PrimExpr.eval env))))).map fun a =>
        (base.buffer, base.offset.eval env
          + addr (contiguous (buffer.shape.map (PrimExpr.eval env))) (range.map fun r => r.min.eval env)
          + a) := by
  have hc : (contiguous (buffer.shape.map (PrimExpr.eval env))).length = range.length := by
    rw [length_contiguous, List.length_map, hlen]
  rw [regionCells, addresses, List.map_fst_zip (by rw [List.length_map, hc]),
    List.map_snd_zip (by rw [List.length_map, hc]), List.map_map]
  refine List.map_congr_left fun p hp => ?_
  have hp' : p.length = range.length := by
    have := (mem_points_iff.1 hp).length_eq
    rw [← this, List.length_map]
  rw [Function.comp_apply, ← addr_contiguous, addr_add (by rw [List.length_map, hc]) (by rw [hp', hc]),
    add_assoc]

theorem zipWith_add_cancel {xs p q : List ℤ} (hp : p.length = xs.length) (hq : q.length = xs.length)
    (h : List.zipWith (· + ·) xs p = List.zipWith (· + ·) xs q) : p = q := by
  induction xs generalizing p q with
  | nil => rw [List.length_eq_zero_iff.1 hp, List.length_eq_zero_iff.1 hq]
  | cons x xs ih =>
    cases p with
    | nil => cases hp
    | cons y ys =>
      cases q with
      | nil => cases hq
      | cons z zs =>
        obtain ⟨hyz, hrest⟩ := List.cons.inj h
        have heq : y = z := add_left_cancel hyz
        rw [heq, ih (Nat.succ.inj hp) (Nat.succ.inj hq) hrest]

/-- A point of a region is a point of the buffer. -/
theorem InBounds.inBox (h : InBounds env buffer range) {p : List ℤ}
    (hp : InBox (range.map fun r => r.extent.eval env) p) :
    InBox (buffer.shape.map (PrimExpr.eval env))
      (List.zipWith (· + ·) (range.map fun r => r.min.eval env) p) := by
  unfold InBounds at h
  generalize buffer.shape = shape at h
  induction h generalizing p with
  | nil =>
    cases hp
    exact .nil
  | cons hr _ ih =>
    obtain ⟨x, xs, hx, hxs, rfl⟩ := List.forall₂_cons_left_iff.1 hp
    dsimp only at hx
    refine .cons ⟨?_, ?_⟩ (ih hxs)
    · exact add_nonneg hr.1 hx.1
    · dsimp only
      omega

/-- Static ones do not count. -/
theorem length_regionCells (env : Env) (buffer : Buffer Env) (base : MemRef Env)
    (range : List (Range Env)) :
    (regionCells env buffer base range).length = ((nonUnitExtents env range).map Int.toNat).prod := by
  rw [regionCells, List.length_map, length_points]
  induction range with
  | nil => rfl
  | cons r range ih =>
    rw [List.map_cons, List.map_cons, List.prod_cons, ih, nonUnitExtents, nonUnitExtents]
    by_cases hr : asConstInt r.extent = some 1
    · have hone : r.extent.eval env = 1 := by
        rw [← eval_foldExpr, foldExpr, hr]
        rfl
      rw [List.filter_cons_of_neg (by simp [hr]), hone, Int.toNat_one, one_mul]
    · rw [List.filter_cons_of_pos (by simp [hr]), List.map_cons, List.map_cons, List.prod_cons]

/-- The elements of a region are different ones. -/
theorem nodup_regionCells (h : InBounds env buffer range) :
    (regionCells env buffer base range).Nodup := by
  refine (nodup_points _).map_on fun p hp q hq heq => ?_
  have hp' := mem_points_iff.1 hp
  have hq' := mem_points_iff.1 hq
  have hflat := add_left_cancel (Prod.mk.inj heq).2
  have hpoint := congrArg (unflatten (buffer.shape.map (PrimExpr.eval env))) hflat
  rw [unflatten_flatten (h.inBox hp'), unflatten_flatten (h.inBox hq')] at hpoint
  have hlp := hp'.length_eq
  have hlq := hq'.length_eq
  rw [List.length_map] at hlp hlq
  exact zipWith_add_cancel (by rw [List.length_map, hlp]) (by rw [List.length_map, hlq]) hpoint

/-! ## One side -/

/-- The facts about a slice. -/
structure FactsOk (env : Env) (buffer : Buffer Env) (base : MemRef Env) (range : List (Range Env))
    (facts : SliceFacts Env) : Prop where
  memref : facts.baseMemref = base
  layoutOffset : facts.baseLayoutOffset = base.offset.eval env
  statics : facts.baseLayoutStrides.length = range.length
  strides : facts.baseLayoutStrideValues.map (OpFoldResult.eval env)
    = contiguous (buffer.shape.map (PrimExpr.eval env))
  offsets : facts.sliceOffsets = range.map fun r => foldExpr r.min
  sizes : facts.sliceSizes = range.map fun r => foldExpr r.extent
  covers : facts.coversWholeBuffer →
    buffer.shape.map (PrimExpr.eval env) = range.map (fun r => r.extent.eval env) ∧
      ∀ r ∈ range, r.min.eval env = 0

theorem eval_of_isEqual {as bs : List (PrimExpr Env)} (h : isEqual as bs = true) :
    as.map (PrimExpr.eval env) = bs.map (PrimExpr.eval env) := by
  induction as generalizing bs with
  | nil =>
    cases bs with
    | nil => rfl
    | cons b bs => cases h
  | cons a as ih =>
    cases bs with
    | nil => cases h
    | cons b bs =>
      rw [isEqual, Bool.and_eq_true] at h
      rw [List.map_cons, List.map_cons, ih h.2]
      cases a with
      | imm x =>
        cases b with
        | imm y =>
          have hxy : x = y := by simpa [asConstInt] using h.1
          rw [hxy]
        | mul b c => cases h.1
        | run f => cases h.1
      | mul a c => cases h.1
      | run f => cases h.1

theorem eval_of_allZero {es : List (PrimExpr Env)} (h : allZero es = true) :
    ∀ e ∈ es, e.eval env = 0 := by
  intro e he
  have hz := List.all_eq_true.1 h e he
  cases e with
  | imm x =>
    have hx : x = 0 := by simpa [asConstInt] using hz
    exact hx
  | mul a b => simp [asConstInt] at hz
  | run f => simp [asConstInt] at hz

/-- `BuildSliceFacts` passes its checks. -/
theorem buildSliceFacts_spec (hsound : ctx.Sound env) (hb : Contiguous ctx env buffer base)
    (hlen : range.length = buffer.shape.length) :
    ∃ facts, buildSliceFacts ctx buffer range = .ok facts ∧ FactsOk env buffer base range facts := by
  obtain ⟨strides, hlayout⟩ := hb.layout
  have hcount : (buildContiguousStrideExprs ctx buffer.shape).length = buffer.shape.length := by
    have := congrArg List.length (eval_contiguousStrides hsound buffer.shape).1
    rwa [List.length_map, length_contiguous, List.length_map] at this
  refine ⟨sliceFacts ctx buffer range base (base.offset.eval env), ?_, ?_⟩
  · rw [buildSliceFacts, hb.found]
    simp only [hlayout]
    rw [bind_icheck hb.noStrides, bind_icheck, bind_icheck]
    · rfl
    · simp only [sliceFacts, extractStaticInts, List.length_map, hcount, hlen]
    · simp only [sliceFacts, List.length_map, hlen, hb.rank]
  · refine ⟨rfl, rfl, ?_, eval_strideValues hsound buffer.shape, rfl, rfl, ?_⟩
    · simp only [sliceFacts, extractStaticInts, List.length_map, hcount, hlen]
    · intro hcov
      simp only [sliceFacts, Bool.and_eq_true] at hcov
      refine ⟨?_, fun r hr => ?_⟩
      · rw [eval_of_isEqual hcov.1, List.map_map]
        rfl
      · exact eval_of_allZero hcov.2 r.min (List.mem_map_of_mem hr)

variable {facts : SliceFacts Env}

/-- The stride of a dimension at run time. -/
def strideAt (env : Env) (facts : SliceFacts Env) (i : ℕ) : ℤ :=
  (facts.baseLayoutStrideValues[i]?.map (OpFoldResult.eval env)).getD 0

/-- The size and the stride of a dimension at run time. -/
def dimAt (env : Env) (facts : SliceFacts Env) (i : ℕ) : ℤ × ℤ :=
  (sizeAt env facts.sliceSizes i, strideAt env facts i)

theorem FactsOk.length_sizes (hf : FactsOk env buffer base range facts) :
    facts.sliceSizes.length = range.length := by
  rw [hf.sizes, List.length_map]

theorem FactsOk.eval_sizes (hf : FactsOk env buffer base range facts) :
    facts.sliceSizes.map (OpFoldResult.eval env) = range.map fun r => r.extent.eval env := by
  rw [hf.sizes, List.map_map]
  exact List.map_congr_left fun r _ => eval_foldExpr _

theorem FactsOk.length_strides (hf : FactsOk env buffer base range facts)
    (hlen : range.length = buffer.shape.length) :
    facts.baseLayoutStrideValues.length = range.length := by
  have := congrArg List.length hf.strides
  rwa [List.length_map, length_contiguous, List.length_map, ← hlen] at this

theorem map_range_getD {α : Type} (f : α → ℤ) (xs : List α) :
    (List.range xs.length).map (fun i => (xs[i]?.map f).getD 0) = xs.map f := by
  have h := congrArg (List.map fun x => (x.map f).getD 0) (map_some_eq_range xs)
  rw [List.map_map, List.map_map] at h
  exact h.symm

/-- All dimensions, in order. -/
theorem FactsOk.map_dimAt (hf : FactsOk env buffer base range facts)
    (hlen : range.length = buffer.shape.length) :
    (List.range facts.sliceSizes.length).map (dimAt env facts)
      = List.zip (range.map fun r => r.extent.eval env)
        (contiguous (buffer.shape.map (PrimExpr.eval env))) := by
  have hsizes : (List.range facts.sliceSizes.length).map (sizeAt env facts.sliceSizes)
      = range.map fun r => r.extent.eval env := by
    rw [← hf.eval_sizes]
    exact map_range_getD _ _
  have hstrides : (List.range facts.sliceSizes.length).map (strideAt env facts)
      = contiguous (buffer.shape.map (PrimExpr.eval env)) := by
    rw [hf.length_sizes, ← hf.length_strides hlen, ← hf.strides]
    exact map_range_getD _ _
  rw [← hsizes, ← hstrides, List.zip_map']
  rfl

/-- What a layout says about the kept dimensions. -/
structure LayoutOk (env : Env) (facts : SliceFacts Env) (kept : List ℕ)
    (layout : ProjectedLayoutPlan Env) : Prop where
  sizes : layout.viewSizes.map (OpFoldResult.eval env) = kept.map (sizeAt env facts.sliceSizes)
  strides : layout.viewStrideValues.map (OpFoldResult.eval env) = kept.map (strideAt env facts)
  offset : layout.viewOffset = computeProjectedViewOffset facts.baseLayoutOffset facts.sliceOffsets
    facts.baseLayoutStrideValues

theorem projectDim_spec (hf : FactsOk env buffer base range facts)
    (hlen : range.length = buffer.shape.length) {i : ℕ} (hi : i < range.length) :
    ∃ d, projectDim facts i = .ok d ∧ d.2.1.eval env = strideAt env facts i ∧
      d.2.2.eval env = sizeAt env facts.sliceSizes i := by
  have h₁ : i < facts.baseLayoutStrides.length := hf.statics ▸ hi
  have h₂ : i < facts.baseLayoutStrideValues.length := (hf.length_strides hlen).symm ▸ hi
  have h₃ : i < facts.sliceSizes.length := hf.length_sizes.symm ▸ hi
  refine ⟨(facts.baseLayoutStrides[i], facts.baseLayoutStrideValues[i], facts.sliceSizes[i]), ?_, ?_, ?_⟩
  · simp only [projectDim, List.getElem?_eq_getElem h₁, List.getElem?_eq_getElem h₂,
      List.getElem?_eq_getElem h₃]
  · rw [strideAt, List.getElem?_eq_getElem h₂]
    rfl
  · rw [sizeAt, List.getElem?_eq_getElem h₃]
    rfl

theorem projectDims_spec (hf : FactsOk env buffer base range facts)
    (hlen : range.length = buffer.shape.length) {kept : List ℕ} (hk : ∀ i ∈ kept, i < range.length) :
    ∃ ds, kept.mapM (projectDim facts) = .ok ds ∧
      (ds.map fun d => d.2.1).map (OpFoldResult.eval env) = kept.map (strideAt env facts) ∧
      (ds.map fun d => d.2.2).map (OpFoldResult.eval env)
        = kept.map (sizeAt env facts.sliceSizes) := by
  induction kept with
  | nil => exact ⟨[], rfl, rfl, rfl⟩
  | cons i kept ih =>
    obtain ⟨d, hd, hstride, hsize⟩ := projectDim_spec hf hlen (hk i List.mem_cons_self)
    obtain ⟨ds, hds, hstrides, hsizes⟩ := ih fun j hj => hk j (List.mem_cons_of_mem _ hj)
    refine ⟨d :: ds, ?_, ?_, ?_⟩
    · rw [List.mapM_cons, hd, hds]
      rfl
    · simp only [List.map_cons, hstride, hstrides]
    · simp only [List.map_cons, hsize, hsizes]

/-- `BuildProjectedLayoutPlan` passes its checks. -/
theorem buildProjectedLayoutPlan_spec (hf : FactsOk env buffer base range facts)
    (hlen : range.length = buffer.shape.length) {kept : List ℕ} {shape : List (Option ℤ)}
    (hk : ∀ i ∈ kept, i < range.length) (hshape : kept.length = shape.length) :
    ∃ layout, buildProjectedLayoutPlan facts kept shape = .ok layout ∧
      LayoutOk env facts kept layout := by
  obtain ⟨ds, hds, hstrides, hsizes⟩ := projectDims_spec hf hlen hk
  refine ⟨⟨ds.map fun d => d.1, ds.map fun d => d.2.1, ds.map fun d => d.2.2,
    computeProjectedViewOffset facts.baseLayoutOffset facts.sliceOffsets facts.baseLayoutStrideValues⟩,
    ?_, hsizes, hstrides, rfl⟩
  rw [buildProjectedLayoutPlan, bind_icheck hshape, hds]
  rfl

/-- The elements of the full-rank subview are those of the region. -/
theorem cells_buildFullRankSubview (hf : FactsOk env buffer base range facts)
    (hb : Contiguous ctx env buffer base) (hlen : range.length = buffer.shape.length) :
    (buildFullRankSubview facts).cells env = regionCells env buffer base range := by
  rw [buildFullRankSubview, regionCells_eq hlen, MemRef.cells]
  split
  · next hcov =>
    obtain ⟨hsizes, hzero⟩ := hf.covers hcov
    have haddr : addr (contiguous (buffer.shape.map (PrimExpr.eval env)))
        (range.map fun r => r.min.eval env) = 0 := by
      refine addr_of_zeros _ fun x hx => ?_
      obtain ⟨r, hr, rfl⟩ := List.mem_map.1 hx
      exact hzero r hr
    rw [haddr, add_zero, hf.memref, hb.sizes, hb.strides, ← hsizes]
  · rw [eval_subview_offset, hf.memref, hb.strides, hf.offsets, List.map_map]
    simp only [subview, Function.comp_def, eval_foldExpr, hb.strides, hf.eval_sizes]

/-- The elements of the aligned view are those of the region. -/
theorem cells_alignedView (hf : FactsOk env buffer base range facts)
    (hb : Contiguous ctx env buffer base) (hlen : range.length = buffer.shape.length)
    {kept : List ℕ} {layout : ProjectedLayoutPlan Env} (hl : LayoutOk env facts kept layout)
    (hk : KeepsAll (staticSize facts.sliceSizes) (List.range facts.sliceSizes.length) kept)
    (shape : List (Option ℤ)) :
    (alignedView facts layout shape).cells env = regionCells env buffer base range := by
  have hfull := cells_buildFullRankSubview hf hb hlen
  have hbuffer : (buildFullRankSubview facts).buffer = base.buffer := by
    rw [buildFullRankSubview]
    split
    · rw [hf.memref]
    · rw [subview, hf.memref]
  rw [alignedView, buildAlignedCopyView]
  split
  · exact hfull
  · -- the dimensions that are left out have size one
    have hdrops : Drops ((List.range facts.sliceSizes.length).map (dimAt env facts))
        (kept.map (dimAt env facts)) := by
      refine drops_of_sublist (dimAt env facts) hk.sublist List.nodup_range fun i hi hik => ?_
      by_contra hne
      refine hik (hk.backbone i hi fun hone => hne ?_)
      exact knows_sizes facts.sliceSizes i 1 hone
    rw [regionCells_eq hlen, ← hf.map_dimAt hlen, addresses_of_drops hdrops, MemRef.cells]
    simp only [reinterpretCast]
    rw [hl.sizes, hl.strides, List.zip_map', hl.offset, eval_computeProjectedViewOffset,
      hf.layoutOffset, hf.strides, hf.offsets, List.map_map, hbuffer]
    simp only [Function.comp_def, eval_foldExpr]
    rfl

/-- Kept dimensions: in order, and all that are not statically one. -/
structure KeptOk (range : List (Range Env)) (kept : List ℕ) : Prop where
  increasing : kept.Pairwise (· < ·)
  complete : ∀ (d : ℕ) r, range[d]? = some r → asConstInt r.extent ≠ some 1 → d ∈ kept

theorem KeepsAll.keptOk (hf : FactsOk env buffer base range facts) {kept : List ℕ}
    (hk : KeepsAll (staticSize facts.sliceSizes) (List.range facts.sliceSizes.length) kept) :
    KeptOk range kept := by
  refine ⟨List.pairwise_lt_range.sublist hk.sublist, fun d r hr hne => ?_⟩
  obtain ⟨hlt, -⟩ := List.getElem?_eq_some_iff.1 hr
  refine hk.backbone d ?_ ?_
  · rw [List.mem_range, hf.length_sizes]
    exact hlt
  · rw [staticSize, hf.sizes, List.getElem?_map, hr, Option.map_some, Option.bind_some,
      extractStaticShapeDim_foldExpr]
    exact hne

theorem FactsOk.nonUnit (hf : FactsOk env buffer base range facts) :
    (nonUnit facts.sliceSizes).map (OpFoldResult.eval env) = nonUnitExtents env range := by
  rw [CopyPlan.nonUnit, hf.sizes, List.filter_map, List.map_map, nonUnitExtents]
  simp only [Function.comp_def, eval_foldExpr, extractStaticShapeDim_foldExpr]

theorem alignedView_type (facts : SliceFacts Env) (layout : ProjectedLayoutPlan Env)
    (shape : List (Option ℤ)) :
    (alignedView facts layout shape).type.shape = shape ∧
      (alignedView facts layout shape).type.elementType = facts.baseMemref.type.elementType := by
  rw [alignedView, buildAlignedCopyView]
  split
  · next heq => exact ⟨by rw [heq], by rw [heq]⟩
  · exact ⟨rfl, rfl⟩

end

/-! ## Both sides -/

/-- `memref.copy` between views of two lists of elements of the same length. -/
theorem memrefCopy_moves {V : Type} {src dst : MemRef Env} {as bs : List (ℕ × ℤ)}
    (hs : src.cells env = as) (hd : dst.cells env = bs) (hlen : as.length = bs.length)
    (hnodup : bs.Nodup) (m : ℕ × ℤ → V) :
    (∀ (k : ℕ) a b, as[k]? = some a → bs[k]? = some b → memrefCopy env src dst m b = m a) ∧
      ∀ c, c ∉ bs → memrefCopy env src dst m c = m c := by
  have hsnd : (List.zip as bs).map Prod.snd = bs := List.map_snd_zip hlen.ge
  rw [← hsnd] at hnodup
  refine ⟨fun k a b ha hb => ?_, fun c hc => ?_⟩
  · rw [memrefCopy, hs, hd]
    refine copyList_of_mem hnodup ?_
    refine List.mem_of_getElem? (i := k) ?_
    rw [List.getElem?_zip_eq_some]
    exact ⟨ha, hb⟩
  · rw [memrefCopy, hs, hd]
    refine copyList_of_notMem ?_
    rwa [hsnd]

/-- Products of numbers. -/
def foldConst : PrimExpr ℤ → PrimExpr ℤ
  | .mul (.imm a) (.imm b) => .imm (a * b)
  | e => e

/-- The argument of a function before it is cast. -/
def flatArg (buffer : ℕ) : MemRef ℤ := ⟨⟨[none], 0, none, 0⟩, buffer, .attr 0, [], [.attr 1]⟩

/-- Two buffers, as arguments. -/
def twoBuffers (a b : Buffer ℤ) : Context ℤ where
  simplify := foldConst
  varMap d :=
    if d = a.data then some (recastParam ⟨foldConst, fun _ => none⟩ a 0 (flatArg 0))
    else if d = b.data then some (recastParam ⟨foldConst, fun _ => none⟩ b 0 (flatArg 1))
    else none

theorem twoBuffers_sound (a b : Buffer ℤ) (x : ℤ) : (twoBuffers a b).Sound x := by
  intro e
  change (foldConst e).eval x = e.eval x
  unfold foldConst
  split
  · rfl
  · rfl

/-- A buffer of shape `(4, 1, 8)` and one of shape `(4,)`. -/
def rows : Buffer ℤ := ⟨0, 0, [.imm 4, .imm 1, .imm 8], []⟩

def tile : Buffer ℤ := ⟨1, 0, [.imm 4], []⟩

/-- `rows[x, 0, 2:6]`, where `x` is known at run time. -/
def rowRange : List (Range ℤ) := [⟨.run id, .imm 1⟩, ⟨.imm 0, .imm 1⟩, ⟨.imm 2, .imm 4⟩]

def tileRange : List (Range ℤ) := [⟨.imm 0, .imm 4⟩]

/-- Buffers of rank zero. -/
def scalarSrc : Buffer ℤ := ⟨0, 0, [], []⟩

def scalarDst : Buffer ℤ := ⟨1, 0, [], []⟩

end TileLangNpuir.CopyPlan
