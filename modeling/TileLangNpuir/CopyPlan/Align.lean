import TileLangNpuir.CopyPlan.Plan

/-!
# The dimensions that a copy keeps

`extract` cuts the dimensions of a slice into slots, and `BuildCopyShapePlan` keeps of each slot
its dimension and as many of the ones before it as the other side has. So the kept dimensions
are some of the dimensions in order, none is left out that is not statically one, and the two
sides have the same sizes along them.
-/

namespace TileLangNpuir.CopyPlan

theorem bind_icheck {α : Type} {p : Prop} [Decidable p] {e : CopyError}
    {k : Unit → Except CopyError α} (hp : p) : (icheck p e >>= k) = k () := by
  rw [icheck, if_pos hp]
  rfl

/-! ## Slots -/

/-- The dimensions of slots, in order. -/
def indices (slots : List Slot) : List ℕ := slots.flatMap fun s => s.gap ++ [s.idx]

@[simp]
theorem indices_nil : indices [] = [] := rfl

@[simp]
theorem indices_cons (s : Slot) (slots : List Slot) :
    indices (s :: slots) = s.gap ++ s.idx :: indices slots := by
  simp [indices]

/-- A slot whose gap is ones and whose dimension is not. -/
structure Slot.Ok (dim : ℕ → Option ℤ) (s : Slot) : Prop where
  gap : ∀ g ∈ s.gap, dim g = some 1
  dim_eq : s.dim = dim s.idx
  idx : dim s.idx ≠ some 1

theorem extract_indices (dim : ℕ → Option ℤ) (is : List ℕ) :
    indices (extract dim is).slots ++ (extract dim is).trailing = is := by
  induction is with
  | nil => rfl
  | cons i is ih =>
    rw [extract]
    split
    · split
      · next hs =>
        rw [hs, indices_nil, List.nil_append] at ih
        rw [indices_nil, List.nil_append, ih]
      · next s ss hs =>
        rw [hs] at ih
        simpa using ih
    · simpa using ih

theorem extract_trailing (dim : ℕ → Option ℤ) (is : List ℕ) :
    ∀ g ∈ (extract dim is).trailing, dim g = some 1 := by
  induction is with
  | nil => simp [extract]
  | cons i is ih =>
    rw [extract]
    split
    · next hi =>
      split
      · intro g hg
        rcases List.mem_cons.1 hg with rfl | hg
        · exact hi
        · exact ih g hg
      · exact ih
    · exact ih

theorem extract_slots (dim : ℕ → Option ℤ) (is : List ℕ) :
    ∀ s ∈ (extract dim is).slots, s.Ok dim := by
  induction is with
  | nil => simp [extract]
  | cons i is ih =>
    rw [extract]
    split
    · next hi =>
      split
      · simp
      · next s ss hs =>
        rw [hs] at ih
        intro s' hs'
        rcases List.mem_cons.1 hs' with rfl | hs'
        · obtain ⟨hgap, hdim, hidx⟩ := ih s List.mem_cons_self
          refine ⟨fun g hg => ?_, hdim, hidx⟩
          rcases List.mem_cons.1 hg with rfl | hg
          · exact hi
          · exact hgap g hg
        · exact ih s' (List.mem_cons_of_mem _ hs')
    · next hi =>
      intro s' hs'
      rcases List.mem_cons.1 hs' with rfl | hs'
      · exact ⟨by simp, rfl, hi⟩
      · exact ih s' hs'

/-- The backbone is what is not statically one. -/
theorem extract_backbone (dim : ℕ → Option ℤ) (is : List ℕ) :
    (extract dim is).slots.map Slot.idx = is.filter fun i => dim i ≠ some 1 := by
  induction is with
  | nil => rfl
  | cons i is ih =>
    rw [extract]
    by_cases hi : dim i = some 1
    · rw [if_pos hi, List.filter_cons_of_neg (by simp [hi]), ← ih]
      split
      · next hs => rw [hs]
      · next s ss hs => rw [hs, List.map_cons, List.map_cons]
    · rw [if_neg hi, List.filter_cons_of_pos (by simp [hi]), List.map_cons, ih]

/-! ## Kept dimensions -/

/-- Some of the dimensions of the slots, the backbone among them. -/
structure Keeps (slots : List Slot) (kept : List ℕ) : Prop where
  sublist : kept.Sublist (indices slots)
  backbone : ∀ s ∈ slots, s.idx ∈ kept

theorem lastN_sublist (n : ℕ) (is : List ℕ) : (lastN n is).Sublist is := List.drop_sublist _ _

theorem length_lastN {n : ℕ} {is : List ℕ} (h : n ≤ is.length) : (lastN n is).length = n := by
  rw [lastN, List.length_drop]
  omega

theorem Keeps.cons {s : Slot} {slots : List Slot} {kept : List ℕ} (h : Keeps slots kept) (n : ℕ) :
    Keeps (s :: slots) (lastN n s.gap ++ s.idx :: kept) := by
  refine ⟨?_, ?_⟩
  · rw [indices_cons]
    exact (lastN_sublist n s.gap).append (h.sublist.cons_cons s.idx)
  · intro s' hs'
    rw [List.mem_append, List.mem_cons]
    rcases List.mem_cons.1 hs' with rfl | hs'
    · exact .inr (.inl rfl)
    · exact .inr (.inr (h.backbone s' hs'))

/-- Ones along which the sizes are read. -/
theorem map_lastN_eq_replicate {val : ℕ → ℤ} {n : ℕ} {gap : List ℕ} (hn : n ≤ gap.length)
    (hgap : ∀ g ∈ gap, val g = 1) : (lastN n gap).map val = List.replicate n 1 := by
  rw [List.eq_replicate_iff, List.length_map]
  refine ⟨length_lastN hn, fun x hx => ?_⟩
  obtain ⟨g, hg, rfl⟩ := List.mem_map.1 hx
  exact hgap g ((lastN_sublist n gap).subset hg)

/-- The sizes that a slice has at run time, where they are known before. -/
def Knows (dim : ℕ → Option ℤ) (val : ℕ → ℤ) : Prop := ∀ i n, dim i = some n → val i = n

/-- Two plans' sides: kept dimensions on both with the same sizes, as many as the shape says. -/
structure Aligned (plan : CopyShapePlan) (valS valD : ℕ → ℤ) : Prop where
  src : plan.alignedShape.length = plan.srcKeptDims.length
  dst : plan.alignedShape.length = plan.dstKeptDims.length
  sizes : plan.srcKeptDims.map valS = plan.dstKeptDims.map valD

section

variable {dimS dimD : ℕ → Option ℤ} {valS valD : ℕ → ℤ}

theorem planSlots_spec (hknowS : Knows dimS valS) (hknowD : Knows dimD valD) {S D : List Slot}
    (h : List.Forall₂ (fun s d => valS s.idx = valD d.idx) S D)
    (hS : ∀ s ∈ S, s.Ok dimS) (hD : ∀ d ∈ D, d.Ok dimD) :
    ∃ plan, planSlots S D = .ok plan ∧ Keeps S plan.srcKeptDims ∧ Keeps D plan.dstKeptDims ∧
      Aligned plan valS valD ∧ (plan.alignedShape = [] → S = []) := by
  induction h with
  | nil =>
    have hnil : Keeps [] [] := ⟨List.Sublist.slnil, by simp⟩
    exact ⟨⟨[], [], []⟩, rfl, hnil, hnil, ⟨rfl, rfl, rfl⟩, fun _ => rfl⟩
  | @cons s d S D hsd _ ih =>
    obtain ⟨plan, hplan, hkS, hkD, hal, -⟩ := ih (fun s hs => hS s (List.mem_cons_of_mem _ hs))
      fun d hd => hD d (List.mem_cons_of_mem _ hd)
    have hs := hS s List.mem_cons_self
    have hd := hD d List.mem_cons_self
    have hcheck : s.dim = none ∨ d.dim = none ∨ s.dim = d.dim := by
      cases hsdim : s.dim with
      | none => exact .inl rfl
      | some x =>
        cases hddim : d.dim with
        | none => exact .inr (.inl rfl)
        | some y =>
          have hx := hknowS s.idx x (hs.dim_eq.symm.trans hsdim)
          have hy := hknowD d.idx y (hd.dim_eq.symm.trans hddim)
          rw [hx, hy] at hsd
          exact .inr (.inr (congrArg some hsd))
    have hgap := Nat.min_le_left s.gap.length d.gap.length
    have hgap' := Nat.min_le_right s.gap.length d.gap.length
    have hok : planSlots (s :: S) (d :: D) = .ok
        ⟨List.replicate (min s.gap.length d.gap.length) (some 1) ++
            (if s.dim = none ∨ d.dim = none then none else s.dim) :: plan.alignedShape,
          lastN (min s.gap.length d.gap.length) s.gap ++ s.idx :: plan.srcKeptDims,
          lastN (min s.gap.length d.gap.length) d.gap ++ d.idx :: plan.dstKeptDims⟩ := by
      rw [planSlots, bind_icheck hcheck, hplan]
      rfl
    refine ⟨_, hok, hkS.cons _, hkD.cons _, ⟨?_, ?_, ?_⟩, fun hnil => by simp at hnil⟩
    · simp only [List.length_append, List.length_replicate, List.length_cons, length_lastN hgap,
        hal.src]
    · simp only [List.length_append, List.length_replicate, List.length_cons, length_lastN hgap',
        hal.dst]
    · have hgS := map_lastN_eq_replicate hgap fun g hg => hknowS g 1 (hs.gap g hg)
      have hgD := map_lastN_eq_replicate hgap' fun g hg => hknowD g 1 (hd.gap g hg)
      simp only [List.map_append, List.map_cons, hgS, hgD, hsd, hal.sizes]

theorem Aligned.planTrailing {plan : CopyShapePlan} (h : Aligned plan valS valD) {src dst : List ℕ}
    (hS : ∀ g ∈ src, valS g = 1) (hD : ∀ g ∈ dst, valD g = 1) :
    Aligned (planTrailing plan src dst) valS valD := by
  have hone : ∀ {val : ℕ → ℤ} {is : List ℕ}, (∀ g ∈ is, val g = 1) → min src.length dst.length ≤ is.length →
      (is.take (min src.length dst.length)).map val
        = List.replicate (min src.length dst.length) 1 := by
    intro val is his hle
    rw [List.eq_replicate_iff, List.length_map, List.length_take]
    refine ⟨min_eq_left hle, fun x hx => ?_⟩
    obtain ⟨g, hg, rfl⟩ := List.mem_map.1 hx
    exact his g (List.mem_of_mem_take hg)
  refine ⟨?_, ?_, ?_⟩
  · simp only [CopyPlan.planTrailing, List.length_append, List.length_replicate, List.length_take,
      h.src]
    omega
  · simp only [CopyPlan.planTrailing, List.length_append, List.length_replicate, List.length_take,
      h.dst]
    omega
  · simp only [CopyPlan.planTrailing, List.map_append, h.sizes, hone hS (Nat.min_le_left _ _),
      hone hD (Nat.min_le_right _ _)]

end

/-- The dimensions that are kept out of all. -/
structure KeepsAll (dim : ℕ → Option ℤ) (is kept : List ℕ) : Prop where
  sublist : kept.Sublist is
  backbone : ∀ i ∈ is, dim i ≠ some 1 → i ∈ kept

/-- Every dimension that is not statically one is the dimension of a slot. -/
theorem exists_slot {dim : ℕ → Option ℤ} {is : List ℕ} {i : ℕ} (hi : i ∈ is)
    (hne : dim i ≠ some 1) : ∃ s ∈ (extract dim is).slots, s.idx = i := by
  have hmem : i ∈ (extract dim is).slots.map Slot.idx := by
    rw [extract_backbone, List.mem_filter]
    exact ⟨hi, by simpa using hne⟩
  simpa [List.mem_map] using hmem

theorem Keeps.keepsAll {dim : ℕ → Option ℤ} {is kept rest : List ℕ}
    (h : Keeps (extract dim is).slots kept) (hrest : rest.Sublist (extract dim is).trailing) :
    KeepsAll dim is (kept ++ rest) := by
  refine ⟨?_, ?_⟩
  · have hsub := h.sublist.append hrest
    rwa [extract_indices] at hsub
  · intro i hi hne
    obtain ⟨s, hs, rfl⟩ := exists_slot hi hne
    exact List.mem_append_left _ (h.backbone s hs)

/-! ## The plan -/

section

variable {Env : Type} (env : Env)

/-- The static size of a dimension. -/
def staticSize (sizes : List (OpFoldResult Env)) (i : ℕ) : Option ℤ :=
  sizes[i]?.bind extractStaticShapeDim

/-- The size of a dimension at run time. -/
def sizeAt (sizes : List (OpFoldResult Env)) (i : ℕ) : ℤ :=
  (sizes[i]?.map (OpFoldResult.eval env)).getD 0

/-- What is left of the sizes without the static ones. -/
def nonUnit (sizes : List (OpFoldResult Env)) : List (OpFoldResult Env) :=
  sizes.filter fun s => extractStaticShapeDim s ≠ some 1

variable {env}

theorem knows_sizes (sizes : List (OpFoldResult Env)) :
    Knows (staticSize sizes) (sizeAt env sizes) := by
  intro i n hn
  obtain ⟨s, hs, hsn⟩ := Option.bind_eq_some_iff.1 hn
  rw [sizeAt, hs]
  cases s with
  | attr k =>
    cases hsn
    rfl
  | value v => cases hsn

/-- Reading a list by its positions. -/
theorem map_some_eq_range {α : Type} (xs : List α) :
    xs.map some = (List.range xs.length).map fun i => xs[i]? := by
  refine List.ext_getElem? fun i => ?_
  rw [List.getElem?_map, List.getElem?_map]
  rcases Nat.lt_or_ge i xs.length with hi | hi
  · rw [List.getElem?_range hi, List.getElem?_eq_getElem hi, Option.map_some, Option.map_some,
      List.getElem?_eq_getElem hi]
  · rw [List.getElem?_eq_none_iff.2 hi, List.getElem?_eq_none_iff.2 (by rwa [List.length_range])]
    rfl

theorem backbone_sizes (sizes : List (OpFoldResult Env)) :
    ((List.range sizes.length).filter fun i => staticSize sizes i ≠ some 1).map (sizeAt env sizes)
      = (nonUnit sizes).map (OpFoldResult.eval env) := by
  have hrange := map_some_eq_range sizes
  have hfilter := congrArg
    (fun l => (l.filter fun s => s.bind extractStaticShapeDim ≠ some 1).map
      fun s => (s.map (OpFoldResult.eval env)).getD 0) hrange
  simp only [List.filter_map, List.map_map] at hfilter
  exact hfilter.symm

theorem trailing_sizes (sizes : List (OpFoldResult Env)) :
    ∀ g ∈ (extractSizes sizes).trailing, sizeAt env sizes g = 1 := by
  intro g hg
  exact knows_sizes sizes g 1 (extract_trailing _ _ g hg)

omit env in
/-- Without a backbone all dimensions are in the gap at the end. -/
theorem length_trailing {sizes : List (OpFoldResult Env)} (h : (extractSizes sizes).slots = []) :
    (extractSizes sizes).trailing.length = sizes.length := by
  have hidx : indices (extractSizes sizes).slots ++ (extractSizes sizes).trailing
      = List.range sizes.length := extract_indices _ _
  rw [h, indices_nil, List.nil_append] at hidx
  rw [hidx, List.length_range]

/-- `BuildCopyShapePlan` passes its checks on slices whose sizes agree without the static ones. -/
theorem buildCopyShapePlan_spec {fs fd : SliceFacts Env} (hs : fs.sliceSizes ≠ [])
    (hd : fd.sliceSizes ≠ [])
    (hext : (nonUnit fs.sliceSizes).map (OpFoldResult.eval env)
      = (nonUnit fd.sliceSizes).map (OpFoldResult.eval env)) :
    ∃ plan, buildCopyShapePlan fs fd = .ok plan ∧
      KeepsAll (staticSize fs.sliceSizes) (List.range fs.sliceSizes.length) plan.srcKeptDims ∧
      KeepsAll (staticSize fd.sliceSizes) (List.range fd.sliceSizes.length) plan.dstKeptDims ∧
      Aligned plan (sizeAt env fs.sliceSizes) (sizeAt env fd.sliceSizes) := by
  have hslots : List.Forall₂ (fun s d => sizeAt env fs.sliceSizes s.idx = sizeAt env fd.sliceSizes d.idx)
      (extractSizes fs.sliceSizes).slots (extractSizes fd.sliceSizes).slots := by
    have heq : (extractSizes fs.sliceSizes).slots.map (fun s => sizeAt env fs.sliceSizes s.idx)
        = (extractSizes fd.sliceSizes).slots.map fun d => sizeAt env fd.sliceSizes d.idx := by
      rw [← backbone_sizes, ← backbone_sizes] at hext
      have hbs := extract_backbone (staticSize fs.sliceSizes) (List.range fs.sliceSizes.length)
      have hbd := extract_backbone (staticSize fd.sliceSizes) (List.range fd.sliceSizes.length)
      rw [← hbs, ← hbd, List.map_map, List.map_map] at hext
      exact hext
    rw [← List.forall₂_eq_eq_eq, List.forall₂_map_left_iff, List.forall₂_map_right_iff] at heq
    exact heq
  obtain ⟨plan, hplan, hkS, hkD, hal, hempty⟩ := planSlots_spec (knows_sizes fs.sliceSizes)
    (knows_sizes fd.sliceSizes) hslots (extract_slots _ _) (extract_slots _ _)
  have hal' := hal.planTrailing (trailing_sizes fs.sliceSizes) (trailing_sizes fd.sliceSizes)
  -- without a backbone there is a dimension in the gap at the end, on both sides
  have hne : (planTrailing plan (extractSizes fs.sliceSizes).trailing
      (extractSizes fd.sliceSizes).trailing).alignedShape ≠ [] := by
    intro hnil
    obtain ⟨hplan_nil, hrep⟩ := List.append_eq_nil_iff.1 hnil
    have hS := hempty hplan_nil
    rw [hS, List.forall₂_nil_left_iff] at hslots
    have hpos := List.length_pos_iff.2 hs
    have hpos' := List.length_pos_iff.2 hd
    have hzero := congrArg List.length hrep
    rw [List.length_replicate, length_trailing hS, length_trailing hslots, List.length_nil] at hzero
    omega
  refine ⟨planTrailing plan (extractSizes fs.sliceSizes).trailing
    (extractSizes fd.sliceSizes).trailing, ?_, hkS.keepsAll (List.take_sublist _ _),
    hkD.keepsAll (List.take_sublist _ _), hal'⟩
  rw [buildCopyShapePlan, bind_icheck hslots.length_eq, hplan]
  change (planScalar _ _ _ >>= _) = _
  rw [planScalar, if_neg hne]
  exact bind_icheck ⟨hal'.src, hal'.dst⟩

end

end TileLangNpuir.CopyPlan
