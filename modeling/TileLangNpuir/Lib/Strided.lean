import Mathlib.Data.List.Nodup
import Mathlib.Data.List.ProdSigma
import TileLangNpuir.Lib.RowMajor

/-!
# Strided views

The points of a box in row-major order, and the addresses that a view with strides gives
them. A dimension of size one changes neither the addresses nor their order, so it can be
dropped (`addresses_of_drops`), and a copy from one list of addresses to another moves the
elements one by one (`copyList`).
-/

namespace TileLangNpuir.RowMajor

/-! ## Points -/

/-- The points of a box in row-major order. -/
def points : List ℤ → List (List ℤ)
  | [] => [[]]
  | n :: ns => (List.range n.toNat).flatMap fun i : ℕ => (points ns).map (List.cons (i : ℤ))

theorem mem_points_iff {sizes p : List ℤ} : p ∈ points sizes ↔ InBox sizes p := by
  induction sizes generalizing p with
  | nil =>
    rw [points, List.mem_singleton, InBox, List.forall₂_nil_left_iff]
  | cons n ns ih =>
    simp only [points, List.mem_flatMap, List.mem_range, List.mem_map, InBox,
      List.forall₂_cons_left_iff]
    constructor
    · rintro ⟨i, hi, q, hq, rfl⟩
      exact ⟨i, q, ⟨Int.natCast_nonneg i, by omega⟩, ih.1 hq, rfl⟩
    · rintro ⟨x, q, ⟨h0, hlt⟩, hq, rfl⟩
      refine ⟨x.toNat, by omega, q, ih.2 hq, ?_⟩
      rw [Int.toNat_of_nonneg h0]

theorem length_points (sizes : List ℤ) : (points sizes).length = (sizes.map Int.toNat).prod := by
  induction sizes with
  | nil => rfl
  | cons n ns ih =>
    simp [points, List.length_flatMap, ih]

theorem nodup_points (sizes : List ℤ) : (points sizes).Nodup := by
  induction sizes with
  | nil => exact List.nodup_singleton _
  | cons n ns ih =>
    rw [points, List.nodup_flatMap]
    refine ⟨fun i _ => ih.map fun p q h => (List.cons.inj h).2, ?_⟩
    refine (List.nodup_range (n := n.toNat)).imp ?_
    intro i j hij p hp hq
    obtain ⟨q, -, rfl⟩ := List.mem_map.1 hp
    obtain ⟨q', -, heq⟩ := List.mem_map.1 hq
    exact hij (Int.natCast_inj.1 (List.cons.inj heq).1.symm)

/-! ## Addresses -/

/-- The distance of a point from the origin. -/
def addr : List ℤ → List ℤ → ℤ
  | s :: ss, x :: xs => x * s + addr ss xs
  | _, _ => 0

/-- Strides of an array without gaps. -/
def contiguous : List ℤ → List ℤ
  | [] => []
  | _ :: ns => ns.prod :: contiguous ns

theorem length_contiguous (sizes : List ℤ) : (contiguous sizes).length = sizes.length := by
  induction sizes with
  | nil => rfl
  | cons n ns ih => rw [contiguous, List.length_cons, List.length_cons, ih]

/-- In an array without gaps, addresses are row-major numbers. -/
theorem addr_contiguous (sizes p : List ℤ) : addr (contiguous sizes) p = flatten sizes p := by
  induction sizes generalizing p with
  | nil => rfl
  | cons n ns ih =>
    cases p with
    | nil => rfl
    | cons x xs => rw [contiguous, addr, flatten, ih]

theorem addr_add {strides p q : List ℤ} (hp : p.length = strides.length)
    (hq : q.length = strides.length) :
    addr strides (List.zipWith (· + ·) p q) = addr strides p + addr strides q := by
  induction strides generalizing p q with
  | nil => rfl
  | cons s ss ih =>
    cases p with
    | nil => cases hp
    | cons x xs =>
      cases q with
      | nil => cases hq
      | cons y ys =>
        rw [List.zipWith_cons_cons, addr, addr, addr, ih (Nat.succ.inj hp) (Nat.succ.inj hq)]
        ring

theorem addr_of_zeros (strides : List ℤ) {p : List ℤ} (hp : ∀ x ∈ p, x = 0) : addr strides p = 0 := by
  induction strides generalizing p with
  | nil => rfl
  | cons s ss ih =>
    cases p with
    | nil => rfl
    | cons x xs =>
      rw [addr, hp x List.mem_cons_self, ih fun y hy => hp y (List.mem_cons_of_mem _ hy), zero_mul,
        add_zero]

/-- The addresses of a view in row-major order; a dimension is a size and a stride. -/
def addresses (dims : List (ℤ × ℤ)) : List ℤ :=
  (points (dims.map Prod.fst)).map (addr (dims.map Prod.snd))

theorem addresses_cons (d : ℤ × ℤ) (dims : List (ℤ × ℤ)) :
    addresses (d :: dims)
      = (List.range d.1.toNat).flatMap fun i : ℕ => (addresses dims).map fun a => i * d.2 + a := by
  simp only [addresses, List.map_cons, points, List.map_flatMap, List.map_map]
  rfl

/-- A view with the addresses of another, in the same order, gives a dimension of size one no
place. -/
inductive Drops : List (ℤ × ℤ) → List (ℤ × ℤ) → Prop
  | nil : Drops [] []
  | keep (d : ℤ × ℤ) {dims dims' : List (ℤ × ℤ)} : Drops dims dims' → Drops (d :: dims) (d :: dims')
  | drop (s : ℤ) {dims dims' : List (ℤ × ℤ)} : Drops dims dims' → Drops ((1, s) :: dims) dims'

theorem addresses_of_drops {dims dims' : List (ℤ × ℤ)} (h : Drops dims dims') :
    addresses dims = addresses dims' := by
  induction h with
  | nil => rfl
  | keep d _ ih => rw [addresses_cons, addresses_cons, ih]
  | drop s _ ih =>
    rw [addresses_cons, ← ih]
    simp

/-- Dimensions picked out of a list, where the rest has size one. -/
theorem drops_of_sublist {α : Type} (f : α → ℤ × ℤ) {kept is : List α} (hsub : kept.Sublist is)
    (hnodup : is.Nodup) (hone : ∀ i ∈ is, i ∉ kept → (f i).1 = 1) :
    Drops (is.map f) (kept.map f) := by
  induction hsub with
  | slnil => exact .nil
  | @cons kept is i hsub ih =>
    obtain ⟨hi, hnodup⟩ := List.nodup_cons.1 hnodup
    have hone' := hone i List.mem_cons_self fun hk => hi (hsub.subset hk)
    have hrest := ih hnodup fun j hj => hone j (List.mem_cons_of_mem _ hj)
    rw [List.map_cons, ← Prod.mk.eta (p := f i), hone']
    exact .drop _ hrest
  | @cons_cons kept is i hsub ih =>
    obtain ⟨hi, hnodup⟩ := List.nodup_cons.1 hnodup
    refine .keep _ (ih hnodup fun j hj hjk => hone j (List.mem_cons_of_mem _ hj) ?_)
    intro hmem
    rcases List.mem_cons.1 hmem with rfl | hmem
    · exact hi hj
    · exact hjk hmem

/-! ## Copies -/

/-- Elements moved from one list of addresses to another. -/
def copyList {α : Type} [DecidableEq α] {V : Type} (read : α → V) :
    List (α × α) → (α → V) → α → V
  | [], m => m
  | (a, b) :: ps, m => copyList read ps (Function.update m b (read a))

section

variable {α V : Type} [DecidableEq α] {read : α → V}

theorem copyList_of_notMem {ps : List (α × α)} {m : α → V} {b : α}
    (hb : b ∉ ps.map Prod.snd) : copyList read ps m b = m b := by
  induction ps generalizing m with
  | nil => rfl
  | cons p ps ih =>
    obtain ⟨a, c⟩ := p
    rw [List.map_cons, List.mem_cons, not_or] at hb
    rw [copyList, ih hb.2, Function.update_of_ne hb.1]

theorem copyList_of_mem {ps : List (α × α)} (hnodup : (ps.map Prod.snd).Nodup) {a b : α}
    (hab : (a, b) ∈ ps) {m : α → V} : copyList read ps m b = read a := by
  induction ps generalizing m with
  | nil => cases hab
  | cons p ps ih =>
    obtain ⟨hp, hnodup⟩ := List.nodup_cons.1 hnodup
    rcases List.mem_cons.1 hab with rfl | hab
    · rw [copyList, copyList_of_notMem hp, Function.update_self]
    · exact ih hnodup hab

end

end TileLangNpuir.RowMajor
