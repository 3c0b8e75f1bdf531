import Mathlib.Algebra.BigOperators.Ring.Finset
import Mathlib.Algebra.BigOperators.Group.Finset.Piecewise
import Mathlib.Data.List.Forall2
import Mathlib.Data.Int.Interval
import Mathlib.Tactic.Linarith
import Mathlib.Tactic.Ring

/-!
# Row-major positions

Positions in a box of given sizes and their row-major numbering. A point whose
coordinates are picked from named counters (`point`) is numbered by a linear form
in those counters; `weight` is its coefficient, the sum of the strides of the
dimensions that use the counter. Two such numberings agree on a box of counters
exactly when the weights of the counters that can move agree.
-/

namespace TileLangNpuir.RowMajor

/-- The point lies in the box. -/
def InBox (sizes p : List ℤ) : Prop := List.Forall₂ (fun n x => 0 ≤ x ∧ x < n) sizes p

instance (sizes p : List ℤ) : Decidable (InBox sizes p) :=
  inferInstanceAs (Decidable (List.Forall₂ _ sizes p))

/-- The row-major number of a point. -/
def flatten : List ℤ → List ℤ → ℤ
  | _ :: ns, x :: xs => x * ns.prod + flatten ns xs
  | _, _ => 0

/-- The point with a given row-major number. -/
def unflatten : List ℤ → ℤ → List ℤ
  | [], _ => []
  | _ :: ns, k => k / ns.prod :: unflatten ns (k % ns.prod)

theorem length_unflatten (sizes : List ℤ) (k : ℤ) :
    (unflatten sizes k).length = sizes.length := by
  induction sizes generalizing k with
  | nil => rfl
  | cons n ns ih => rw [unflatten, List.length_cons, ih, List.length_cons]

theorem flatten_bounds {sizes p : List ℤ} (h : InBox sizes p) :
    0 ≤ flatten sizes p ∧ flatten sizes p < sizes.prod := by
  induction h with
  | nil => exact ⟨le_rfl, Int.one_pos⟩
  | @cons n x ns xs hx _ ih =>
    rw [flatten, List.prod_cons]
    have hprod : 0 < ns.prod := lt_of_le_of_lt ih.1 ih.2
    constructor
    · exact add_nonneg (mul_nonneg hx.1 hprod.le) ih.1
    · calc x * ns.prod + flatten ns xs < x * ns.prod + ns.prod := by linarith [ih.2]
        _ = (x + 1) * ns.prod := by ring
        _ ≤ n * ns.prod := mul_le_mul_of_nonneg_right hx.2 hprod.le

/-- Numbering is undone by `unflatten` inside the box. -/
theorem unflatten_flatten {sizes p : List ℤ} (h : InBox sizes p) :
    unflatten sizes (flatten sizes p) = p := by
  induction h with
  | nil => rfl
  | @cons n x ns xs hx hxs ih =>
    obtain ⟨h0, hlt⟩ := flatten_bounds hxs
    have hprod : 0 < ns.prod := lt_of_le_of_lt h0 hlt
    have hdiv : (x * ns.prod + flatten ns xs) / ns.prod = x := by
      rw [add_comm, Int.add_mul_ediv_right _ _ hprod.ne', Int.ediv_eq_zero_of_lt h0 hlt,
        zero_add]
    have hmod : (x * ns.prod + flatten ns xs) % ns.prod = flatten ns xs := by
      rw [add_comm, Int.add_mul_emod_self_right, Int.emod_eq_of_lt h0 hlt]
    rw [flatten, unflatten, hdiv, hmod, ih]

/-- A number whose point lies in the box is the number of that point. -/
theorem flatten_unflatten {sizes : List ℤ} {k : ℤ} (h : InBox sizes (unflatten sizes k))
    (hne : sizes ≠ []) : flatten sizes (unflatten sizes k) = k := by
  induction sizes generalizing k with
  | nil => exact absurd rfl hne
  | cons n ns ih =>
    rw [unflatten, flatten]
    obtain ⟨-, hrest⟩ := List.forall₂_cons.mp h
    by_cases hns : ns = []
    · subst hns
      simp [flatten]
    · rw [ih hrest hns, mul_comm, Int.mul_ediv_add_emod]

/-- The number zero is the origin. -/
theorem unflatten_zero (sizes : List ℤ) : ∀ x ∈ unflatten sizes 0, x = 0 := by
  induction sizes with
  | nil => simp [unflatten]
  | cons n ns ih =>
    intro x hx
    rw [unflatten, Int.zero_ediv, Int.zero_emod] at hx
    rcases List.mem_cons.mp hx with rfl | hx
    · rfl
    · exact ih x hx

section Counters

variable {ι : Type} [DecidableEq ι]

/-- The point whose coordinates are the counters named by `dims`. -/
def point (dims : List (Option ι)) (t : ι → ℤ) : List ℤ := dims.map fun d => d.elim 0 t

/-- The coefficient of a counter in the row-major number of a `point`. -/
def weight : List ℤ → List (Option ι) → ι → ℤ
  | _ :: ns, d :: ds, j => (if d = some j then ns.prod else 0) + weight ns ds j
  | _, _, _ => 0

theorem flatten_point {sizes : List ℤ} {dims : List (Option ι)} {s : Finset ι} {t : ι → ℤ}
    (hlen : sizes.length = dims.length) (hs : ∀ j, some j ∈ dims → j ∈ s) :
    flatten sizes (point dims t) = ∑ j ∈ s, weight sizes dims j * t j := by
  induction sizes generalizing dims with
  | nil =>
    obtain rfl := List.length_eq_zero_iff.mp hlen.symm
    simp [flatten, weight]
  | cons n ns ih =>
    cases dims with
    | nil => cases hlen
    | cons d ds =>
      have hrest := ih (Nat.succ.inj hlen) fun j hj => hs j (List.mem_cons_of_mem _ hj)
      rw [point] at hrest
      rw [point, List.map_cons, flatten, hrest]
      simp only [weight, add_mul, Finset.sum_add_distrib]
      congr 1
      cases d with
      | none => simp
      | some i =>
        have hi : i ∈ s := hs i List.mem_cons_self
        simp only [Option.elim_some, Option.some.injEq, ite_mul, zero_mul, Finset.sum_ite_eq,
          if_pos hi]
        ring

omit [DecidableEq ι] in
/-- A point depends on the counters it names. -/
theorem point_congr {dims : List (Option ι)} {t t' : ι → ℤ}
    (h : ∀ j, some j ∈ dims → t j = t' j) : point dims t = point dims t' := by
  refine List.map_congr_left fun d hd => ?_
  cases d with
  | none => rfl
  | some j => exact h j hd

/-- Two linear forms agree on a box of counters exactly when they agree on the
counters that can move. -/
theorem sum_mul_eq_iff {s : Finset ι} {E w w' : ι → ℤ} (hE : ∀ j ∈ s, 0 < E j) :
    (∀ t : ι → ℤ, (∀ j ∈ s, 0 ≤ t j ∧ t j < E j) →
      ∑ j ∈ s, w j * t j = ∑ j ∈ s, w' j * t j) ↔
    ∀ j ∈ s, 1 < E j → w j = w' j := by
  constructor
  · intro h j hj hlt
    have hunit := h (fun k => if k = j then 1 else 0) ?_
    · simpa [hj] using hunit
    · intro k hk
      by_cases hkj : k = j
      · simp [hkj, hlt]
      · simp [hkj, hE k hk]
  · intro h t ht
    refine Finset.sum_congr rfl fun j hj => ?_
    by_cases hlt : 1 < E j
    · rw [h j hj hlt]
    · have hzero : t j = 0 := by
        have := ht j hj
        omega
      rw [hzero, mul_zero, mul_zero]

end Counters

end TileLangNpuir.RowMajor
