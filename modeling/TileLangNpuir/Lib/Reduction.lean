import Mathlib.Algebra.Order.BigOperators.Group.List
import Mathlib.Algebra.Order.Ring.Defs
import TileLangNpuir.Lib.Tensor

/-!
# Reductions over dimensions of a box

A reduction takes the elements of a box together along the flagged dimensions. The elements that
go into one result are a `fiber`: the flagged coordinates run, the others are those of the result.
A box is known from its results: the reductions of all functions tell the extents of the flagged
dimensions.
-/

namespace TileLangNpuir.RowMajor

/-! ## Fibers -/

/-- The extents with the flagged ones set to one. -/
def collapse (flags : List Bool) (es : List ℤ) : List ℤ :=
  List.zipWith (fun f n => if f then 1 else n) flags es

/-- The points of a box that go into the result at a point. -/
def fiber : List Bool → List ℤ → List ℤ → List (List ℤ)
  | true :: fs, n :: es, _ :: q =>
    (List.range n.toNat).flatMap fun (x : ℕ) => (fiber fs es q).map ((x : ℤ) :: ·)
  | false :: fs, _ :: es, x :: q => (fiber fs es q).map (x :: ·)
  | _, _, _ => [[]]

section Fibers

variable {fs : List Bool} {es es' p q : List ℤ} {n x y : ℤ}

theorem cons_mem_fiber_true :
    x :: p ∈ fiber (true :: fs) (n :: es) (y :: q) ↔ (0 ≤ x ∧ x < n) ∧ p ∈ fiber fs es q := by
  simp only [fiber, List.mem_flatMap, List.mem_range, List.mem_map, List.cons.injEq]
  constructor
  · rintro ⟨k, hk, p', hp', rfl, rfl⟩
    exact ⟨by omega, hp'⟩
  · rintro ⟨hx, hp⟩
    exact ⟨x.toNat, by omega, p, hp, by omega, rfl⟩

theorem cons_mem_fiber_false :
    x :: p ∈ fiber (false :: fs) (n :: es) (y :: q) ↔ x = y ∧ p ∈ fiber fs es q := by
  simp only [fiber, List.mem_map, List.cons.injEq]
  constructor
  · rintro ⟨p', hp', rfl, rfl⟩
    exact ⟨rfl, hp'⟩
  · rintro ⟨rfl, hp⟩
    exact ⟨p, hp, rfl, rfl⟩

theorem exists_mem_fiber (hpos : ∀ n ∈ es, 0 < n) : ∃ p, p ∈ fiber fs es q := by
  induction es generalizing fs q with
  | nil =>
    refine ⟨[], ?_⟩
    unfold fiber
    split <;> simp_all
  | cons n es ih =>
    rw [List.forall_mem_cons] at hpos
    match fs, q with
    | [], _ | _ :: _, [] => exact ⟨[], by simp [fiber]⟩
    | true :: fs, y :: q =>
      obtain ⟨p, hp⟩ : ∃ p, p ∈ fiber fs es q := ih hpos.2
      exact ⟨0 :: p, cons_mem_fiber_true.mpr ⟨⟨le_rfl, hpos.1⟩, hp⟩⟩
    | false :: fs, y :: q =>
      obtain ⟨p, hp⟩ : ∃ p, p ∈ fiber fs es q := ih hpos.2
      exact ⟨y :: p, cons_mem_fiber_false.mpr ⟨rfl, hp⟩⟩

/-- The extents of a box are known from a fiber and the extents that are not flagged. -/
theorem eq_of_fiber (hfs : fs.length = q.length) (hlen : es.length = q.length)
    (hlen' : es'.length = q.length) (hpos : ∀ n ∈ es, 0 < n) (hpos' : ∀ n ∈ es', 0 < n)
    (hsame : ∀ p, p ∈ fiber fs es q ↔ p ∈ fiber fs es' q)
    (hcollapse : collapse fs es = collapse fs es') : es = es' := by
  induction q generalizing fs es es' with
  | nil => rw [List.length_eq_zero_iff.mp hlen, List.length_eq_zero_iff.mp hlen']
  | cons y q ih =>
    obtain ⟨f, fs, rfl⟩ := List.exists_cons_of_length_eq_add_one hfs
    obtain ⟨n, es, rfl⟩ := List.exists_cons_of_length_eq_add_one hlen
    obtain ⟨n', es', rfl⟩ := List.exists_cons_of_length_eq_add_one hlen'
    rw [List.forall_mem_cons] at hpos hpos'
    rw [collapse, collapse, List.zipWith_cons_cons, List.zipWith_cons_cons, List.cons.injEq]
      at hcollapse
    obtain ⟨hn, hcollapse⟩ := hcollapse
    have htail (h : ∀ p, p ∈ fiber fs es q ↔ p ∈ fiber fs es' q) : es = es' :=
      ih (Nat.succ.inj hfs) (Nat.succ.inj hlen) (Nat.succ.inj hlen') hpos.2 hpos'.2 h hcollapse
    cases f with
    | true =>
      obtain ⟨p, hp⟩ : ∃ p, p ∈ fiber fs es q := exists_mem_fiber hpos.2
      obtain ⟨p', hp'⟩ : ∃ p, p ∈ fiber fs es' q := exists_mem_fiber hpos'.2
      have hlast := cons_mem_fiber_true.mp
        ((hsame ((n - 1) :: p)).mp (cons_mem_fiber_true.mpr ⟨by omega, hp⟩))
      have hlast' := cons_mem_fiber_true.mp
        ((hsame ((n' - 1) :: p')).mpr (cons_mem_fiber_true.mpr ⟨by omega, hp'⟩))
      congr 1
      · omega
      · apply htail
        intro p
        have h := hsame (0 :: p)
        rw [cons_mem_fiber_true, cons_mem_fiber_true] at h
        simpa [hpos.1, hpos'.1] using h
    | false =>
      congr 1
      apply htail
      intro p
      have h := hsame (y :: p)
      rw [cons_mem_fiber_false, cons_mem_fiber_false] at h
      simpa using h

theorem length_of_mem_fiber (hfs : fs.length = q.length) (hlen : es.length = q.length)
    (h : p ∈ fiber fs es q) : p.length = q.length := by
  induction q generalizing fs es p with
  | nil =>
    obtain rfl := List.length_eq_zero_iff.mp hfs
    rw [fiber, List.mem_singleton] at h
    · rw [h]
    · nofun
    · nofun
  | cons y q ih =>
    obtain ⟨f, fs, rfl⟩ := List.exists_cons_of_length_eq_add_one hfs
    obtain ⟨n, es, rfl⟩ := List.exists_cons_of_length_eq_add_one hlen
    cases f with
    | true =>
      simp only [fiber, List.mem_flatMap, List.mem_map] at h
      obtain ⟨x, -, p', hp', rfl⟩ := h
      exact congrArg Nat.succ (ih (Nat.succ.inj hfs) (Nat.succ.inj hlen) hp')
    | false =>
      simp only [fiber, List.mem_map] at h
      obtain ⟨p', hp', rfl⟩ := h
      exact congrArg Nat.succ (ih (Nat.succ.inj hfs) (Nat.succ.inj hlen) hp')

/-- The point of the whole depends on the low ends only. -/
theorem toGlobal_zip {lows : List ℤ} (h : lows.length = es.length) :
    toGlobal (lows.zip es) p = List.zipWith (fun l x => l + x) lows p := by
  induction lows generalizing es p with
  | nil => simp [toGlobal]
  | cons l lows ih =>
    obtain ⟨n, es, rfl⟩ := List.exists_cons_of_length_eq_add_one h.symm
    cases p with
    | nil => rfl
    | cons x p => rw [List.zip_cons_cons, toGlobal, ih (Nat.succ.inj h), List.zipWith_cons_cons]

theorem zipWith_add_inj {lows p' : List ℤ} (h : p.length = lows.length)
    (h' : p'.length = lows.length)
    (heq : List.zipWith (fun l x => l + x) lows p = List.zipWith (fun l x => l + x) lows p') :
    p = p' := by
  induction lows generalizing p p' with
  | nil => rw [List.length_eq_zero_iff.mp h, List.length_eq_zero_iff.mp h']
  | cons l lows ih =>
    obtain ⟨x, p, rfl⟩ := List.exists_cons_of_length_eq_add_one h
    obtain ⟨x', p', rfl⟩ := List.exists_cons_of_length_eq_add_one h'
    rw [List.zipWith_cons_cons, List.zipWith_cons_cons, List.cons.injEq, add_right_inj] at heq
    rw [heq.1, ih (Nat.succ.inj h) (Nat.succ.inj h') heq.2]

theorem inBox_zeros (hpos : ∀ n ∈ es, 0 < n) : InBox es (List.replicate es.length 0) := by
  induction es with
  | nil => exact .nil
  | cons n es ih =>
    rw [List.forall_mem_cons] at hpos
    exact .cons ⟨le_rfl, hpos.1⟩ (ih hpos.2)

theorem length_collapse (h : fs.length = es.length) : (collapse fs es).length = es.length := by
  rw [collapse, List.length_zipWith, h, min_self]

theorem collapse_pos (hpos : ∀ n ∈ es, 0 < n) : ∀ n ∈ collapse fs es, 0 < n := by
  induction es generalizing fs with
  | nil => simp [collapse]
  | cons m es ih =>
    rw [List.forall_mem_cons] at hpos
    cases fs with
    | nil => nofun
    | cons f fs =>
      rw [collapse, List.zipWith_cons_cons, List.forall_mem_cons]
      refine ⟨?_, ih hpos.2⟩
      cases f with
      | true => exact Int.one_pos
      | false => exact hpos.1

end Fibers

/-! ## Taking elements together -/

inductive Reduction : Type where
  | sum
  | max
  | min
  deriving DecidableEq

namespace Reduction

variable {R : Type} [Ring R] [LinearOrder R]

/-- All elements taken together; there is at least one. -/
def reduce (xs : List R) : Reduction → R
  | .sum => xs.sum
  | .max => xs.max?.getD 0
  | .min => xs.min?.getD 0

/-- Two elements taken together. -/
def combine (a b : R) : Reduction → R
  | .sum => a + b
  | .max => Max.max a b
  | .min => Min.min a b

/-- The sign of elements that do not cancel out. -/
def sign : Reduction → R
  | .sum => 1
  | .max => 1
  | .min => -1

variable {xs : List R} {a : R}

theorem max_ne_zero (hpos : ∀ x ∈ xs, 0 ≤ x) (hne : xs ≠ []) :
    0 ≤ xs.max?.getD 0 ∧ (xs.max?.getD 0 ≠ 0 ↔ ∃ x ∈ xs, x ≠ 0) := by
  obtain ⟨m, hm⟩ := Option.isSome_iff_exists.mp (List.isSome_max?_of_ne_nil hne)
  obtain ⟨hmem, hle⟩ := List.max?_eq_some_iff.mp hm
  rw [hm, Option.getD_some]
  refine ⟨hpos m hmem, fun h => ⟨m, hmem, h⟩, fun ⟨x, hx, hx0⟩ h => hx0 ?_⟩
  exact le_antisymm (h ▸ hle x hx) (hpos x hx)

theorem min_ne_zero (hneg : ∀ x ∈ xs, x ≤ 0) (hne : xs ≠ []) :
    xs.min?.getD 0 ≤ 0 ∧ (xs.min?.getD 0 ≠ 0 ↔ ∃ x ∈ xs, x ≠ 0) := by
  obtain ⟨m, hm⟩ := Option.isSome_iff_exists.mp (List.isSome_min?_of_ne_nil hne)
  obtain ⟨hmem, hle⟩ := List.min?_eq_some_iff.mp hm
  rw [hm, Option.getD_some]
  refine ⟨hneg m hmem, fun h => ⟨m, hmem, h⟩, fun ⟨x, hx, hx0⟩ h => hx0 ?_⟩
  exact le_antisymm (hneg x hx) (h ▸ hle x hx)

variable [IsStrictOrderedRing R]

theorem sum_ne_zero (hpos : ∀ x ∈ xs, 0 ≤ x) : xs.sum ≠ 0 ↔ ∃ x ∈ xs, x ≠ 0 := by
  induction xs with
  | nil => simp
  | cons x xs ih =>
    rw [List.forall_mem_cons] at hpos
    have hsum := List.sum_nonneg hpos.2
    rw [List.sum_cons, List.exists_mem_cons_iff, ← ih hpos.2, ne_eq,
      add_eq_zero_iff_of_nonneg hpos.1 hsum, not_and_or]

/-- Elements of the right sign do not cancel out. -/
theorem reduce_ne_zero (k : Reduction) (hsign : ∀ x ∈ xs, 0 ≤ k.sign * x) (hne : xs ≠ []) :
    0 ≤ k.sign * k.reduce xs ∧ (k.reduce xs ≠ 0 ↔ ∃ x ∈ xs, x ≠ 0) := by
  cases k with
  | sum =>
    simp only [sign, one_mul] at hsign ⊢
    exact ⟨List.sum_nonneg hsign, sum_ne_zero hsign⟩
  | max =>
    simp only [sign, one_mul] at hsign ⊢
    exact max_ne_zero hsign hne
  | min =>
    simp only [sign, neg_mul, one_mul, neg_nonneg] at hsign ⊢
    exact min_ne_zero hsign hne

theorem combine_zero (k : Reduction) (h : 0 ≤ k.sign * a) : k.combine 0 a = a := by
  cases k with
  | sum => exact zero_add a
  | max =>
    rw [sign, one_mul] at h
    exact max_eq_right h
  | min =>
    rw [sign, neg_mul, one_mul, neg_nonneg] at h
    exact min_eq_right h

/-- What is left when elements of the right sign are taken together with a zero or alone. -/
theorem finish_ne_zero (k : Reduction) (clear : Bool) (hsign : ∀ x ∈ xs, 0 ≤ k.sign * x)
    (hne : xs ≠ []) :
    (if clear then k.reduce xs else k.combine 0 (k.reduce xs)) ≠ 0 ↔ ∃ x ∈ xs, x ≠ 0 := by
  obtain ⟨hpos, hiff⟩ := k.reduce_ne_zero hsign hne
  rw [k.combine_zero hpos, ite_self]
  exact hiff

theorem sign_mul_sign (k : Reduction) : 0 < (k.sign : R) * k.sign := by
  cases k <;> simp [sign]

end Reduction

end TileLangNpuir.RowMajor
