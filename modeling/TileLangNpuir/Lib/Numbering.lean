import Mathlib.Data.Int.Interval
import Mathlib.Data.List.Perm.Subperm
import Mathlib.Data.Nat.Count

/-!
# Numberings

Functions that number the positions below `n` from `0` to `n - 1`, each number once:
how a strictly sorted list numbers its elements, and what a rotation by the size of
one of two classes does when that class has the highest numbers.
-/

namespace TileLangNpuir

/-- The positions below `n` get the numbers below `n`, each once. -/
structure Numbers (n : ℕ) (f : ℕ → ℤ) : Prop where
  nonneg : ∀ p < n, 0 ≤ f p
  lt : ∀ p < n, f p < n
  inj : ∀ p < n, ∀ q < n, f p = f q → p = q

/-- The numbers in a row are a permutation of `0, …, n - 1`. -/
def PermutesRange (n : ℕ) (f : ℕ → ℤ) : Prop :=
  ((List.range n).map f).Perm ((List.range n).map fun (i : ℕ) => (i : ℤ))

theorem Numbers.permutesRange {n : ℕ} {f : ℕ → ℤ} (h : Numbers n f) : PermutesRange n f := by
  have hnodup : ((List.range n).map f).Nodup := by
    refine (List.nodup_map_iff_inj_on List.nodup_range).mpr fun p hp q hq => ?_
    exact h.inj p (List.mem_range.mp hp) q (List.mem_range.mp hq)
  refine (hnodup.subperm fun z hz => ?_).perm_of_length_le (by simp)
  obtain ⟨p, hp, rfl⟩ := List.mem_map.mp hz
  have hlo := h.nonneg p (List.mem_range.mp hp)
  have hhi := h.lt p (List.mem_range.mp hp)
  exact List.mem_map.mpr ⟨(f p).toNat, List.mem_range.mpr (by omega), Int.toNat_of_nonneg hlo⟩

theorem PermutesRange.inj {n : ℕ} {f : ℕ → ℤ} (h : PermutesRange n f) {p q : ℕ} (hp : p < n)
    (hq : q < n) (heq : f p = f q) : p = q := by
  have hnodup : ((List.range n).map fun (i : ℕ) => (i : ℤ)).Nodup :=
    List.nodup_range.map Nat.cast_injective
  exact (List.nodup_map_iff_inj_on List.nodup_range).mp (h.nodup_iff.mpr hnodup) p
    (List.mem_range.mpr hp) q (List.mem_range.mpr hq) heq

/-! ## Sorted lists -/

/-- In a sorted list, positions compare as the elements do. -/
theorem idxOf_lt_idxOf_iff {α : Type} [DecidableEq α] {R : α → α → Prop} {l : List α}
    (hasymm : ∀ a b, R a b → ¬ R b a) (h : l.Pairwise R) {a b : α} (ha : a ∈ l) (hb : b ∈ l)
    (hne : a ≠ b) : l.idxOf a < l.idxOf b ↔ R a b := by
  have hsorted : ∀ x ∈ l, ∀ y ∈ l, l.idxOf x < l.idxOf y → R x y := by
    intro x hx y hy hlt
    have hx' := List.idxOf_lt_length_of_mem hx
    have hy' := List.idxOf_lt_length_of_mem hy
    have hR := List.pairwise_iff_getElem.mp h _ _ hx' hy' hlt
    rwa [List.getElem_idxOf hx', List.getElem_idxOf hy'] at hR
  refine ⟨hsorted a ha b hb, fun hR => ?_⟩
  rcases Nat.lt_trichotomy (l.idxOf a) (l.idxOf b) with hlt | heq | hgt
  · exact hlt
  · exact absurd ((List.idxOf_inj ha).mp heq) hne
  · exact absurd (hsorted b hb a ha hgt) (hasymm a b hR)

/-! ## Counting -/

section Count

variable {P : ℕ → Prop} [DecidablePred P]

/-- Every smaller count is reached at a position that is counted. -/
theorem exists_count_eq {n v : ℕ} (h : v < Nat.count P n) : ∃ x < n, P x ∧ Nat.count P x = v := by
  induction n with
  | zero => simp at h
  | succ n ih =>
    by_cases hv : v < Nat.count P n
    · obtain ⟨x, hx, hP, hc⟩ := ih hv
      exact ⟨x, by omega, hP, hc⟩
    · rw [Nat.count_succ] at h
      by_cases hP : P n
      · rw [if_pos hP] at h
        exact ⟨n, by omega, hP, by omega⟩
      · rw [if_neg hP] at h
        omega

/-- A position that is not counted keeps the count below the position. -/
theorem count_lt_of_not {i n : ℕ} (hi : i < n) (hP : ¬ P i) : Nat.count P n < n := by
  induction n with
  | zero => omega
  | succ n ih =>
    rw [Nat.count_succ]
    have hle : Nat.count P n ≤ n := Nat.count_le P
    rcases Nat.lt_succ_iff_lt_or_eq.mp hi with hlt | rfl
    · have := ih hlt
      split <;> omega
    · rw [if_neg hP]
      omega

theorem count_eq_length_filter (n : ℕ) :
    Nat.count P n = ((List.range n).filter fun p => P p).length := by
  rw [Nat.count, List.countP_eq_length_filter]

end Count

/-! ## Rotating -/

section Rotate

variable {n : ℕ} {f : ℕ → ℤ} {c : ℕ → Bool}

/-- A set of positions with numbers in an interval is not larger than the interval. -/
theorem Numbers.length_le (h : Numbers n f) {c : ℕ → Bool} {a b : ℤ}
    (hab : ∀ p < n, c p = true → a ≤ f p ∧ f p < b) :
    (((List.range n).filter c).length : ℤ) ≤ max 0 (b - a) := by
  have hcard : ((List.range n).filter c).length ≤ (Finset.Ico a b).card := by
    have hnodup : (((List.range n).filter c).map f).Nodup := by
      refine (List.nodup_map_iff_inj_on (List.nodup_range.filter c)).mpr fun p hp q hq => ?_
      exact h.inj p (List.mem_range.mp (List.mem_filter.mp hp).1) q
        (List.mem_range.mp (List.mem_filter.mp hq).1)
    calc ((List.range n).filter c).length
        = (((List.range n).filter c).map f).length := (List.length_map _).symm
      _ = (((List.range n).filter c).map f).toFinset.card :=
        (List.toFinset_card_of_nodup hnodup).symm
      _ ≤ (Finset.Ico a b).card := by
        refine Finset.card_le_card fun z hz => ?_
        obtain ⟨p, hp, rfl⟩ := List.mem_map.mp (List.mem_toFinset.mp hz)
        obtain ⟨hrange, hc⟩ := List.mem_filter.mp hp
        exact Finset.mem_Ico.mpr (hab p (List.mem_range.mp hrange) hc)
  rw [Int.card_Ico] at hcard
  omega

/-- The class `c` has the highest numbers. -/
def AtEnd (n : ℕ) (f : ℕ → ℤ) (c : ℕ → Bool) : Prop :=
  ∀ p < n, c p = true → ∀ q < n, c q = false → f q < f p

/-- Rotating by the size of the class at the end moves the others up. -/
theorem Numbers.rotate_of_false (h : Numbers n f) (hend : AtEnd n f c) {q : ℕ} (hq : q < n)
    (hc : c q = false) :
    (f q + ((List.range n).filter c).length) % n = f q + ((List.range n).filter c).length := by
  have hcount := h.length_le (c := c) (a := f q + 1) (b := n) fun p hp hcp =>
    ⟨hend p hp hcp q hq hc, h.lt p hp⟩
  have hlo := h.nonneg q hq
  have hhi := h.lt q hq
  exact Int.emod_eq_of_lt (by omega) (by omega)

/-- Rotating by the size of the class at the end moves the class to the front. -/
theorem Numbers.rotate_of_true (h : Numbers n f) (hend : AtEnd n f c) {p : ℕ} (hp : p < n)
    (hc : c p = true) :
    (f p + ((List.range n).filter c).length) % n =
      f p + ((List.range n).filter c).length - n := by
  have hcount := h.length_le (c := fun q => !c q) (a := 0) (b := f p) fun q hq hcq =>
    ⟨h.nonneg q hq, hend p hp hc q hq (by simpa using hcq)⟩
  have hsplit := List.length_eq_length_filter_add (l := List.range n) c
  have hle := List.length_filter_le c (List.range n)
  rw [List.length_range] at hsplit hle
  have hlo := h.nonneg p hp
  have hhi := h.lt p hp
  rw [← Int.sub_emod_right]
  exact Int.emod_eq_of_lt (by omega) (by omega)

/-- A rotated numbering is a numbering. -/
theorem Numbers.rotate (h : Numbers n f) (k : ℤ) : Numbers n fun p => (f p + k) % n := by
  have hpos {p : ℕ} (hp : p < n) : (0 : ℤ) < n := by omega
  refine ⟨fun p hp => Int.emod_nonneg _ (hpos hp).ne', fun p hp => Int.emod_lt_of_pos _ (hpos hp),
    fun p hp q hq heq => h.inj p hp q hq ?_⟩
  have hdvd : (n : ℤ) ∣ (f p + k) - (f q + k) :=
    Int.dvd_of_emod_eq_zero (Int.emod_eq_emod_iff_emod_sub_eq_zero.mp heq)
  have hp₀ := h.nonneg p hp
  have hp₁ := h.lt p hp
  have hq₀ := h.nonneg q hq
  have hq₁ := h.lt q hq
  have hzero := Int.eq_zero_of_abs_lt_dvd hdvd (by rw [abs_lt]; omega)
  omega

end Rotate

end TileLangNpuir
