import Mathlib.Algebra.Order.BigOperators.GroupWithZero.List
import TileLangNpuir.Lib.Box

/-!
# Tensors and slices

Tensors of static shape, their slices, and the operations that read and write slices. The shape
of a slice may leave out dimensions of size one (`rankReduced`); its elements are then matched
with those of the ranges by their row-major number, which such dimensions do not change. Where
the shapes do not fit, an operation is not well formed and gives nothing.
-/

namespace TileLangNpuir.RowMajor

/-! ## Numbering -/

theorem inBox_unflatten {sizes : List ℤ} {k : ℤ} (hpos : ∀ n ∈ sizes, 0 < n) (h0 : 0 ≤ k)
    (hlt : k < sizes.prod) : InBox sizes (unflatten sizes k) := by
  induction sizes generalizing k with
  | nil => exact .nil
  | cons n ns ih =>
    have hns : ∀ x ∈ ns, 0 < x := fun x hx => hpos x (List.mem_cons_of_mem _ hx)
    have hprod : 0 < ns.prod := List.prod_pos hns
    rw [List.prod_cons] at hlt
    refine .cons ⟨Int.ediv_nonneg h0 hprod.le, Int.ediv_lt_of_lt_mul hprod hlt⟩ ?_
    exact ih hns (Int.emod_nonneg _ hprod.ne') (Int.emod_lt_of_pos _ hprod)

theorem flatten_unflatten_of_lt {sizes : List ℤ} {k : ℤ} (hpos : ∀ n ∈ sizes, 0 < n) (h0 : 0 ≤ k)
    (hlt : k < sizes.prod) : flatten sizes (unflatten sizes k) = k := by
  by_cases hne : sizes = []
  · subst hne
    rw [List.prod_nil] at hlt
    simp only [flatten]
    omega
  · exact flatten_unflatten (inBox_unflatten hpos h0 hlt) hne

theorem pos_of_inBox {sizes p : List ℤ} (h : InBox sizes p) : ∀ n ∈ sizes, 0 < n := by
  induction h with
  | nil => simp
  | cons hx _ ih =>
    intro n hn
    rcases List.mem_cons.mp hn with rfl | hn
    · omega
    · exact ih n hn

/-! ## Ranges -/

/-- The extents of ranges, each a low end and an extent. -/
def extents (rs : List (ℤ × ℤ)) : List ℤ := rs.map Prod.snd

/-- The point of the whole at a point of the ranges. -/
def toGlobal : List (ℤ × ℤ) → List ℤ → List ℤ
  | r :: rs, x :: xs => (r.1 + x) :: toGlobal rs xs
  | _, _ => []

/-- The point of the ranges at a point of the whole. -/
def toLocal : List (ℤ × ℤ) → List ℤ → List ℤ
  | r :: rs, x :: xs => (x - r.1) :: toLocal rs xs
  | _, _ => []

/-- The ranges have elements and lie in a box. -/
def Within (shape : List ℤ) (rs : List (ℤ × ℤ)) : Prop :=
  List.Forall₂ (fun n r => 0 ≤ r.1 ∧ 0 < r.2 ∧ r.1 + r.2 ≤ n) shape rs

instance (shape : List ℤ) (rs : List (ℤ × ℤ)) : Decidable (Within shape rs) :=
  inferInstanceAs (Decidable (List.Forall₂ _ shape rs))

instance (rs : List (ℤ × ℤ)) (p : List ℤ) : Decidable (InRanges rs p) :=
  inferInstanceAs (Decidable (List.Forall₂ _ rs p))

/-- All of the box. -/
def IsWhole (shape : List ℤ) (rs : List (ℤ × ℤ)) : Prop :=
  shape = extents rs ∧ ∀ r ∈ rs, r.1 = 0

instance (shape : List ℤ) (rs : List (ℤ × ℤ)) : Decidable (IsWhole shape rs) :=
  inferInstanceAs (Decidable (_ ∧ _))

section

variable {shape p q : List ℤ} {rs : List (ℤ × ℤ)}

theorem inRanges_toGlobal (h : InBox (extents rs) q) : InRanges rs (toGlobal rs q) := by
  induction rs generalizing q with
  | nil =>
    cases h
    exact .nil
  | cons r rs ih =>
    obtain ⟨x, xs, hx, hxs, rfl⟩ := List.forall₂_cons_left_iff.mp h
    rw [toGlobal]
    exact .cons ⟨by omega, by omega⟩ (ih hxs)

theorem inBox_toLocal (h : InRanges rs p) : InBox (extents rs) (toLocal rs p) := by
  induction h with
  | nil => exact .nil
  | cons hx _ ih =>
    rw [toLocal]
    exact .cons ⟨by omega, by omega⟩ ih

theorem toLocal_toGlobal (h : InBox (extents rs) q) : toLocal rs (toGlobal rs q) = q := by
  induction rs generalizing q with
  | nil =>
    cases h
    rfl
  | cons r rs ih =>
    obtain ⟨x, xs, hx, hxs, rfl⟩ := List.forall₂_cons_left_iff.mp h
    rw [toGlobal, toLocal, ih hxs, add_sub_cancel_left]

theorem toGlobal_toLocal (h : InRanges rs p) : toGlobal rs (toLocal rs p) = p := by
  induction h with
  | nil => rfl
  | cons hx _ ih => rw [toLocal, toGlobal, ih, add_sub_cancel]

theorem inBox_of_inRanges (hin : Within shape rs) (h : InRanges rs p) : InBox shape p := by
  induction hin generalizing p with
  | nil =>
    cases h
    exact .nil
  | cons hr _ ih =>
    obtain ⟨x, xs, hx, hxs, rfl⟩ := List.forall₂_cons_left_iff.mp h
    exact .cons ⟨by omega, by omega⟩ (ih hxs)

theorem Within.extents_pos (h : Within shape rs) : ∀ n ∈ extents rs, 0 < n := by
  induction h with
  | nil => simp [extents]
  | cons hr _ ih =>
    intro n hn
    rcases List.mem_cons.mp hn with rfl | hn
    · exact hr.2.1
    · exact ih n hn

theorem Within.length_eq (h : Within shape rs) : (extents rs).length = shape.length := by
  rw [extents, List.length_map]
  exact (List.Forall₂.length_eq h).symm

theorem Within.shape_pos (h : Within shape rs) : ∀ n ∈ shape, 0 < n := by
  induction h with
  | nil => simp
  | cons hr _ ih =>
    intro n hn
    rcases List.mem_cons.mp hn with rfl | hn
    · omega
    · exact ih n hn

/-- Ranges with the extents of the box are all of it. -/
theorem Within.isWhole (h : Within shape rs) (hext : shape = extents rs) : IsWhole shape rs := by
  refine ⟨hext, ?_⟩
  subst hext
  rw [Within, extents, List.forall₂_map_left_iff, List.forall₂_same] at h
  intro r hr
  have := h r hr
  omega

theorem Within.prod_le (h : Within shape rs) : (extents rs).prod ≤ shape.prod := by
  induction h with
  | nil => exact le_rfl
  | @cons n r ns rs hr hrs ih =>
    have hpos : 0 < (extents rs).prod := List.prod_pos (Within.extents_pos hrs)
    change r.2 * (extents rs).prod ≤ (n :: ns).prod
    rw [List.prod_cons]
    exact mul_le_mul (by omega) ih hpos.le (by omega)

/-- Ranges with as many elements as the box have its extents. -/
theorem Within.eq_extents_of_prod (h : Within shape rs) (hprod : shape.prod = (extents rs).prod) :
    shape = extents rs := by
  induction h with
  | nil => rfl
  | @cons n r ns rs hr hrs ih =>
    change n :: ns = r.2 :: extents rs
    have hpos : 0 < (extents rs).prod := List.prod_pos (Within.extents_pos hrs)
    have hle := Within.prod_le hrs
    replace hprod : n * ns.prod = r.2 * (extents rs).prod := by
      rw [← List.prod_cons, hprod]
      rfl
    have hn : n = r.2 := by
      by_contra hne
      have hlt : r.2 < n := by omega
      have : r.2 * (extents rs).prod < n * ns.prod :=
        mul_lt_mul hlt hle hpos (by omega)
      omega
    rw [hn] at hprod ⊢
    rw [ih (mul_left_cancel₀ (by omega) hprod)]

theorem inBox_origin (hpos : ∀ n ∈ shape, 0 < n) : InBox shape (shape.map fun _ => 0) := by
  rw [InBox, List.forall₂_map_right_iff, List.forall₂_same]
  exact fun n hn => ⟨le_rfl, hpos n hn⟩

/-- Ranges that are not the whole leave a point out. -/
theorem exists_not_inRanges (h : Within shape rs) (hnot : ¬IsWhole shape rs) :
    ∃ p, InBox shape p ∧ ¬InRanges rs p := by
  induction h with
  | nil => exact absurd ⟨rfl, nofun⟩ hnot
  | @cons n r ns rs hr hrs ih =>
    by_cases hext : n = r.2
    · -- the first range is all of its dimension, so a later one is not
      obtain ⟨p, hp, hout⟩ := ih fun hwhole => hnot
        ⟨congrArg₂ List.cons hext hwhole.1, fun r' hr' => by
          rcases List.mem_cons.mp hr' with rfl | hr'
          · omega
          · exact hwhole.2 r' hr'⟩
      refine ⟨0 :: p, .cons ⟨le_rfl, by omega⟩ hp, fun hin => hout ?_⟩
      exact (List.forall₂_cons.mp hin).2
    · have hrest : InBox ns (ns.map fun _ => 0) := inBox_origin (Within.shape_pos hrs)
      by_cases hlow : r.1 = 0
      · refine ⟨r.2 :: _, .cons ⟨by omega, by omega⟩ hrest, fun hin => ?_⟩
        have := (List.forall₂_cons.mp hin).1
        omega
      · refine ⟨0 :: _, .cons ⟨le_rfl, by omega⟩ hrest, fun hin => ?_⟩
        have := (List.forall₂_cons.mp hin).1
        omega

theorem toLocal_of_isWhole (h : IsWhole shape rs) (hlen : p.length = shape.length) :
    toLocal rs p = p := by
  obtain ⟨rfl, hzero⟩ := h
  rw [extents, List.length_map] at hlen
  induction rs generalizing p with
  | nil =>
    obtain rfl := List.length_eq_zero_iff.mp hlen
    rfl
  | cons r rs ih =>
    cases p with
    | nil => cases hlen
    | cons x xs =>
      rw [toLocal, ih (fun r' hr' => hzero r' (List.mem_cons_of_mem _ hr')) (Nat.succ.inj hlen),
        hzero r List.mem_cons_self, sub_zero]

theorem toGlobal_of_isWhole (h : IsWhole shape rs) (hlen : q.length = shape.length) :
    toGlobal rs q = q := by
  obtain ⟨rfl, hzero⟩ := h
  rw [extents, List.length_map] at hlen
  induction rs generalizing q with
  | nil =>
    obtain rfl := List.length_eq_zero_iff.mp hlen
    rfl
  | cons r rs ih =>
    cases q with
    | nil => cases hlen
    | cons x xs =>
      rw [toGlobal, ih (fun r' hr' => hzero r' (List.mem_cons_of_mem _ hr')) (Nat.succ.inj hlen),
        hzero r List.mem_cons_self, zero_add]

/-- All of a box is in the whole. -/
theorem inRanges_of_isWhole (h : IsWhole shape rs) (hp : InBox shape p) : InRanges rs p := by
  rw [← toGlobal_of_isWhole h (List.Forall₂.length_eq hp).symm]
  exact inRanges_toGlobal (h.1 ▸ hp)

end

/-! ## Dimensions of size one -/

/-- The second shape is the first without some dimensions of size one: the dimensions are matched
from the left, and one that does not match has to be a one. -/
def rankReduced : List ℤ → List ℤ → Bool
  | [], [] => true
  | [], _ :: _ => false
  | n :: ns, [] => n = 1 && rankReduced ns []
  | n :: ns, m :: ms => if n = m then rankReduced ns ms else n = 1 && rankReduced ns (m :: ms)

/-- The dimensions of other sizes. -/
def backbone (shape : List ℤ) : List ℤ := shape.filter fun n => n ≠ 1

theorem backbone_cons (n : ℤ) (ns : List ℤ) :
    backbone (n :: ns) = if n = 1 then backbone ns else n :: backbone ns := by
  by_cases h : n = 1 <;> simp [backbone, h]

theorem length_backbone_le (shape : List ℤ) : (backbone shape).length ≤ shape.length :=
  List.length_filter_le _ _

theorem prod_backbone (shape : List ℤ) : (backbone shape).prod = shape.prod := by
  induction shape with
  | nil => rfl
  | cons n ns ih =>
    rw [backbone_cons]
    split
    case isTrue h => rw [ih, List.prod_cons, h, one_mul]
    case isFalse => rw [List.prod_cons, ih, List.prod_cons]

theorem rankReduced_iff {shape reduced : List ℤ} :
    rankReduced shape reduced = true ↔
      reduced.Sublist shape ∧ backbone shape = backbone reduced := by
  induction shape generalizing reduced with
  | nil =>
    cases reduced with
    | nil => simp [rankReduced]
    | cons m ms => simp [rankReduced]
  | cons n ns ih =>
    cases reduced with
    | nil =>
      rw [rankReduced, Bool.and_eq_true, decide_eq_true_eq, ih, backbone_cons]
      constructor
      · rintro ⟨rfl, -, hback⟩
        exact ⟨List.nil_sublist _, by rw [if_pos rfl, hback]⟩
      · rintro ⟨-, hback⟩
        split at hback
        case isTrue h => exact ⟨h, List.nil_sublist _, hback⟩
        case isFalse => cases hback
    | cons m ms =>
      rw [rankReduced]
      split
      case isTrue h =>
        subst h
        rw [ih, List.cons_sublist_cons, backbone_cons, backbone_cons]
        refine and_congr_right fun _ => ?_
        split
        · rfl
        · exact ⟨congrArg _, fun h => (List.cons.inj h).2⟩
      case isFalse hne =>
        rw [Bool.and_eq_true, decide_eq_true_eq, ih]
        constructor
        · rintro ⟨rfl, hsub, hback⟩
          exact ⟨hsub.cons _, by rw [backbone_cons, if_pos rfl, hback]⟩
        · rintro ⟨hsub, hback⟩
          have hsub' : (m :: ms).Sublist ns := by
            cases hsub with
            | cons _ h => exact h
            | cons_cons _ h => exact absurd rfl hne
          rw [backbone_cons n] at hback
          split at hback
          case isTrue h => exact ⟨h, hsub', hback⟩
          case isFalse =>
            -- one more dimension than can come from the rest
            have hlen := (hsub'.filter fun n => n ≠ 1).length_le
            have hcons := congrArg List.length hback
            simp only [List.length_cons, backbone] at hcons hlen
            omega

theorem rankReduced_self (shape : List ℤ) : rankReduced shape shape = true :=
  rankReduced_iff.mpr ⟨List.Sublist.refl _, rfl⟩

theorem rankReduced_backbone (shape : List ℤ) : rankReduced shape (backbone shape) = true := by
  refine rankReduced_iff.mpr ⟨List.filter_sublist, ?_⟩
  rw [backbone, backbone, List.filter_filter]
  simp

theorem prod_of_rankReduced {shape reduced : List ℤ} (h : rankReduced shape reduced = true) :
    reduced.prod = shape.prod := by
  rw [← prod_backbone reduced, ← (rankReduced_iff.mp h).2, prod_backbone]

theorem pos_of_rankReduced {shape reduced : List ℤ} (h : rankReduced shape reduced = true)
    (hpos : ∀ n ∈ shape, 0 < n) : ∀ n ∈ reduced, 0 < n :=
  fun n hn => hpos n ((rankReduced_iff.mp h).1.subset hn)

/-! ## Tensors -/

/-- A tensor of static shape. -/
structure Tensor (V : Type) : Type where
  shape : List ℤ
  elem : List ℤ → V

/-- The element with a given row-major number. -/
def Tensor.nth {V : Type} (t : Tensor V) (k : ℤ) : V := t.elem (unflatten t.shape k)

/-- The same elements under another shape, number by number. -/
def Tensor.reshape {V : Type} (t : Tensor V) (shape : List ℤ) : Tensor V :=
  ⟨shape, fun p => t.nth (flatten shape p)⟩

/-- Every element replaced. -/
def Tensor.map {V W : Type} (f : V → W) (t : Tensor V) : Tensor W := ⟨t.shape, fun p => f (t.elem p)⟩

/-- `tensor.extract_slice`, also reading a view of a memref: the elements of the ranges under
`shape`. -/
def extractSlice {V : Type} (t : Tensor V) (rs : List (ℤ × ℤ)) (shape : List ℤ) :
    Option (Tensor V) :=
  if Within t.shape rs ∧ rankReduced (extents rs) shape then
    some ⟨shape, fun q => t.elem (toGlobal rs (unflatten (extents rs) (flatten shape q)))⟩
  else none

/-- `tensor.insert_slice`: the elements of the ranges replaced by those of the source. -/
def insertSlice {V : Type} (src dst : Tensor V) (rs : List (ℤ × ℤ)) : Option (Tensor V) :=
  if Within dst.shape rs ∧ rankReduced (extents rs) src.shape then
    some ⟨dst.shape, fun p =>
      if InRanges rs p then src.nth (flatten (extents rs) (toLocal rs p)) else dst.elem p⟩
  else none

section

variable {V : Type} {t src dst res : Tensor V} {rs : List (ℤ × ℤ)} {shape p : List ℤ}

theorem extractSlice_of_within (hin : Within t.shape rs)
    (hshape : rankReduced (extents rs) shape = true) :
    ∃ s, extractSlice t rs shape = some s ∧ s.shape = shape ∧
      ∀ k, 0 ≤ k → k < shape.prod → s.nth k = t.elem (toGlobal rs (unflatten (extents rs) k)) := by
  rw [extractSlice, if_pos ⟨hin, hshape⟩]
  refine ⟨_, rfl, rfl, fun k h0 hlt => ?_⟩
  have hpos := pos_of_rankReduced hshape hin.extents_pos
  change t.elem (toGlobal rs (unflatten (extents rs) (flatten shape (unflatten shape k)))) = _
  rw [flatten_unflatten_of_lt hpos h0 hlt]

/-- A slice in its own shape holds the elements at the points of the ranges. -/
theorem extractSlice_extents (hin : Within t.shape rs) :
    ∃ s, extractSlice t rs (extents rs) = some s ∧ s.shape = extents rs ∧
      ∀ q, InBox (extents rs) q → s.elem q = t.elem (toGlobal rs q) := by
  rw [extractSlice, if_pos ⟨hin, rankReduced_self _⟩]
  refine ⟨_, rfl, rfl, fun q hq => ?_⟩
  change t.elem (toGlobal rs (unflatten (extents rs) (flatten (extents rs) q))) = _
  rw [unflatten_flatten hq]

theorem insertSlice_of_within (dst : Tensor V) (hin : Within dst.shape rs)
    (hshape : rankReduced (extents rs) src.shape = true) :
    ∃ r, insertSlice src dst rs = some r ∧ r.shape = dst.shape ∧
      (∀ p, InRanges rs p → r.elem p = src.nth (flatten (extents rs) (toLocal rs p))) ∧
      ∀ p, ¬InRanges rs p → r.elem p = dst.elem p := by
  rw [insertSlice, if_pos ⟨hin, hshape⟩]
  exact ⟨_, rfl, rfl, fun p hp => if_pos hp, fun p hp => if_neg hp⟩

theorem rankReduced_of_insertSlice (h : insertSlice src dst rs = some res) :
    rankReduced (extents rs) src.shape = true := by
  rw [insertSlice] at h
  split at h
  case isTrue hwf => exact hwf.2
  case isFalse => cases h

/-- The number of a point of the ranges. -/
theorem flatten_toLocal_bounds (h : InRanges rs p) :
    0 ≤ flatten (extents rs) (toLocal rs p) ∧
      flatten (extents rs) (toLocal rs p) < (extents rs).prod :=
  flatten_bounds (inBox_toLocal h)

end

end TileLangNpuir.RowMajor
