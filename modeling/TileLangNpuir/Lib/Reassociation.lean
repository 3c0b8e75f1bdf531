import TileLangNpuir.Lib.Tensor

/-!
# Collapsing and expanding shapes

A reassociation puts consecutive dimensions of a shape into groups. Collapsing replaces each group
by one dimension, as large as the group, expanding is the other way around, and both keep the
row-major number of every element.
-/

namespace TileLangNpuir.RowMajor

/-! ## Points -/

/-- The point of the collapsed shape. -/
def collapsePoint : List (List ℤ) → List ℤ → List ℤ
  | [], _ => []
  | g :: gs, p => flatten g (p.take g.length) :: collapsePoint gs (p.drop g.length)

/-- The point of the expanded shape. -/
def expandPoint : List (List ℤ) → List ℤ → List ℤ
  | g :: gs, x :: xs => unflatten g x ++ expandPoint gs xs
  | _, _ => []

section

variable {g r sizes : List ℤ} {gs : List (List ℤ)} {k : ℤ}

theorem emod_mul_ediv {a b : ℤ} (hb : 0 < b) (k : ℤ) : k % (a * b) / b = k / b % a := by
  have hsplit : k / (a * b) = k / b / a := by rw [mul_comm, Int.ediv_ediv_of_nonneg hb.le]
  have hsub : k % (a * b) = k + b * -(a * (k / b / a)) := by
    rw [Int.emod_def, hsplit]
    ring
  rw [hsub, Int.add_mul_ediv_left _ _ hb.ne', Int.emod_def]
  ring

theorem unflatten_append (hg : ∀ n ∈ g, 0 < n) (hr : 0 < r.prod) (h0 : 0 ≤ k)
    (hlt : k < (g ++ r).prod) :
    unflatten (g ++ r) k = unflatten g (k / r.prod) ++ unflatten r (k % r.prod) := by
  induction g generalizing k with
  | nil =>
    rw [List.nil_append] at hlt
    rw [Int.emod_eq_of_lt h0 hlt]
    rfl
  | cons n g ih =>
    rw [List.forall_mem_cons] at hg
    have hprod : 0 < (g ++ r).prod := by
      rw [List.prod_append]
      exact mul_pos (List.prod_pos hg.2) hr
    rw [List.cons_append, unflatten, unflatten,
      ih hg.2 (Int.emod_nonneg k hprod.ne') (Int.emod_lt_of_pos k hprod), List.prod_append,
      emod_mul_ediv hr, Int.emod_emod_of_dvd k (Int.dvd_mul_left ..), mul_comm g.prod,
      Int.ediv_ediv_of_nonneg hr.le]
    rfl

theorem pos_of_prod (hnonneg : ∀ n ∈ sizes, 0 ≤ n) (h0 : 0 ≤ k) (hlt : k < sizes.prod) :
    ∀ n ∈ sizes, 0 < n := by
  intro n hn
  refine lt_of_le_of_ne (hnonneg n hn) fun hzero => ?_
  have hprod : sizes.prod = 0 := List.prod_eq_zero (hzero ▸ hn)
  omega

theorem prod_groups (gs : List (List ℤ)) : (gs.map List.prod).prod = gs.flatten.prod :=
  List.prod_flatten.symm

/-- The point with a row-major number, in the expanded shape. -/
theorem expandPoint_unflatten (hpos : ∀ n ∈ gs.flatten, 0 < n) (h0 : 0 ≤ k)
    (hlt : k < gs.flatten.prod) :
    expandPoint gs (unflatten (gs.map List.prod) k) = unflatten gs.flatten k := by
  induction gs generalizing k with
  | nil => rfl
  | cons g gs ih =>
    rw [List.flatten_cons, List.forall_mem_append] at hpos
    have hrest : 0 < gs.flatten.prod := List.prod_pos hpos.2
    rw [List.map_cons, unflatten, expandPoint, prod_groups,
      ih hpos.2 (Int.emod_nonneg k hrest.ne') (Int.emod_lt_of_pos k hrest), List.flatten_cons,
      unflatten_append hpos.1 hrest h0 hlt]

/-- The point with a row-major number, in the collapsed shape. -/
theorem collapsePoint_unflatten (hpos : ∀ n ∈ gs.flatten, 0 < n) (h0 : 0 ≤ k)
    (hlt : k < gs.flatten.prod) :
    collapsePoint gs (unflatten gs.flatten k) = unflatten (gs.map List.prod) k := by
  induction gs generalizing k with
  | nil => rfl
  | cons g gs ih =>
    rw [List.flatten_cons, List.forall_mem_append] at hpos
    have hrest : 0 < gs.flatten.prod := List.prod_pos hpos.2
    have hg : flatten g (unflatten g (k / gs.flatten.prod)) = k / gs.flatten.prod := by
      refine flatten_unflatten_of_lt hpos.1 (Int.ediv_nonneg h0 hrest.le) ?_
      rw [List.flatten_cons, List.prod_append] at hlt
      exact Int.ediv_lt_of_lt_mul hrest hlt
    have hlen := length_unflatten g (k / gs.flatten.prod)
    rw [List.flatten_cons, unflatten_append hpos.1 hrest h0 hlt, collapsePoint, List.map_cons,
      unflatten, prod_groups, List.take_left' hlen, List.drop_left' hlen, hg,
      ih hpos.2 (Int.emod_nonneg k hrest.ne') (Int.emod_lt_of_pos k hrest)]

end

/-! ## Shapes -/

/-- The extents of each group. -/
def groups (shape : List ℤ) (reassoc : List (List ℕ)) : List (List ℤ) :=
  reassoc.map fun g => g.map fun i => shape.getD i 1

/-- The groups partition the dimensions in order, and each is as large as the dimension it stands
for. With no dimension there is no group, and there may be ones only. -/
def Fits (collapsed expanded : List ℤ) (reassoc : List (List ℕ)) : Prop :=
  if collapsed = [] then reassoc = [] ∧ ∀ n ∈ expanded, n = 1
  else reassoc.flatten = List.range expanded.length ∧ (∀ g ∈ reassoc, g ≠ []) ∧
    (groups expanded reassoc).map List.prod = collapsed

instance (collapsed expanded : List ℤ) (reassoc : List (List ℕ)) :
    Decidable (Fits collapsed expanded reassoc) :=
  inferInstanceAs (Decidable (ite _ _ _))

section

variable {V : Type} {t r : Tensor V} {reassoc : List (List ℕ)} {shape collapsed expanded : List ℤ}

/-- `tensor.collapse_shape`. -/
def collapseShape (t : Tensor V) (reassoc : List (List ℕ)) (shape : List ℤ) : Option (Tensor V) :=
  if Fits shape t.shape reassoc then
    some ⟨shape, fun p =>
      t.elem (if shape = [] then t.shape.map fun _ => 0 else expandPoint (groups t.shape reassoc) p)⟩
  else none

/-- `tensor.expand_shape`. -/
def expandShape (t : Tensor V) (reassoc : List (List ℕ)) (shape : List ℤ) : Option (Tensor V) :=
  if Fits t.shape shape reassoc then
    some ⟨shape, fun p => t.elem (collapsePoint (groups shape reassoc) p)⟩
  else none

theorem flatten_groups (h : reassoc.flatten = List.range shape.length) :
    (groups shape reassoc).flatten = shape := by
  rw [groups, ← List.map_flatten, h]
  refine List.ext_getElem (by simp) fun i hi hi' => ?_
  simp [hi']

theorem Fits.prod_eq (h : Fits collapsed expanded reassoc) : collapsed.prod = expanded.prod := by
  rw [Fits] at h
  split at h
  · rename_i hnil
    rw [hnil, List.prod_nil, List.prod_eq_one h.2]
  · rw [← h.2.2, prod_groups, flatten_groups h.1]

/-- The elements keep their order. -/
theorem collapseShape_spec (hnonneg : ∀ n ∈ t.shape, 0 ≤ n)
    (h : Fits shape t.shape reassoc) : ∃ r, collapseShape t reassoc shape = some r ∧
      r.shape = shape ∧ ∀ k, 0 ≤ k → k < t.shape.prod → r.nth k = t.nth k := by
  refine ⟨_, if_pos h, rfl, fun k h0 hlt => ?_⟩
  rw [Tensor.nth, Tensor.nth]
  dsimp only
  rw [Fits] at h
  split at h
  · rename_i hnil
    rw [if_pos hnil]
    have hprod : t.shape.prod = 1 := List.prod_eq_one h.2
    obtain rfl : k = 0 := by omega
    have hzeros := List.eq_replicate_iff.mpr ⟨length_unflatten t.shape 0, unflatten_zero t.shape⟩
    rw [hzeros, List.map_const']
  · rename_i hne
    have hflat := flatten_groups h.1
    have hpos := pos_of_prod hnonneg h0 hlt
    rw [if_neg hne, ← h.2.2, expandPoint_unflatten (by rwa [hflat]) h0 (by rwa [hflat]), hflat]

theorem expandShape_spec (hnonneg : ∀ n ∈ shape, 0 ≤ n) (h : Fits t.shape shape reassoc) :
    ∃ r, expandShape t reassoc shape = some r ∧ r.shape = shape ∧
      ∀ k, 0 ≤ k → k < t.shape.prod → r.nth k = t.nth k := by
  refine ⟨_, if_pos h, rfl, fun k h0 hlt => ?_⟩
  have hprod := h.prod_eq
  rw [Tensor.nth, Tensor.nth]
  dsimp only
  rw [Fits] at h
  split at h
  · rename_i hnil
    rw [h.1, hnil]
    rfl
  · have hflat := flatten_groups h.1
    have hpos := pos_of_prod hnonneg h0 (hprod ▸ hlt)
    have hpoint := collapsePoint_unflatten (k := k) (by rwa [hflat]) h0
      (by rwa [hflat, ← hprod])
    rw [hflat, h.2.2] at hpoint
    rw [hpoint]

end

end TileLangNpuir.RowMajor
