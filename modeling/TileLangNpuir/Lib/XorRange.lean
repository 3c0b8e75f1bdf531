import Mathlib.Data.Nat.Log
import Mathlib.Data.Nat.Bitwise
import Mathlib.Tactic.Ring

/-!
# Exclusive or on a range

When `a ^^^ p` stays below `n` for all `a < n` and the small `p`, and the same for the
digits of a number in some base.
-/

namespace TileLangNpuir

/-- A bit that is not set is added. -/
theorem xor_two_pow_of_lt {q b k : ℕ} (hb : b < 2 ^ k) :
    (2 ^ (k + 1) * q + b) ^^^ 2 ^ k = 2 ^ (k + 1) * q + b + 2 ^ k := by
  have hpos : 0 < 2 ^ k := Nat.two_pow_pos k
  have hpow : 2 ^ (k + 1) = 2 ^ k * 2 := pow_succ 2 k
  have hsplit : ∀ c, 2 ^ (k + 1) * q + b + c * 2 ^ k = 2 ^ k * (2 * q + c) + b := by
    intro c
    rw [hpow]
    ring
  have hdiv : ∀ c, (2 ^ k * (2 * q + c) + b) / 2 ^ k = 2 * q + c := fun c => by
    rw [Nat.mul_add_div hpos, Nat.div_eq_of_lt hb, Nat.add_zero]
  have hmod : ∀ c, (2 ^ k * (2 * q + c) + b) % 2 ^ k = b := fun c => by
    rw [Nat.mul_add_mod, Nat.mod_eq_of_lt hb]
  have hzero := hsplit 0
  have hone := hsplit 1
  rw [Nat.zero_mul, Nat.add_zero] at hzero
  rw [Nat.one_mul] at hone
  rw [hone, hzero]
  refine (Nat.div_add_mod _ (2 ^ k)).symm.trans ?_
  rw [Nat.xor_div_two_pow, Nat.xor_mod_two_pow, hdiv, hmod, Nat.div_self hpos, Nat.mod_self,
    Nat.xor_zero, Nat.add_zero, Nat.xor_one_of_even (even_two_mul q)]

/-- A range that a bit leads out of nowhere is made of whole blocks. -/
theorem dvd_of_forall_xor_two_pow_lt {n k : ℕ} (h : ∀ a < n, a ^^^ 2 ^ k < n) : 2 ^ (k + 1) ∣ n := by
  have hpos : 0 < 2 ^ k := Nat.two_pow_pos k
  have hpow : 2 ^ (k + 1) = 2 ^ k + 2 ^ k := by rw [pow_succ, Nat.mul_two]
  have hdecomp := Nat.div_add_mod n (2 ^ (k + 1))
  have hr := Nat.mod_lt n (Nat.two_pow_pos (k + 1))
  by_contra hdvd
  have hrpos : 0 < n % 2 ^ (k + 1) := Nat.pos_of_ne_zero fun hzero => hdvd (Nat.dvd_of_mod_eq_zero hzero)
  have hb : n % 2 ^ (k + 1) - 2 ^ k < 2 ^ k := by omega
  have hlt := h (2 ^ (k + 1) * (n / 2 ^ (k + 1)) + (n % 2 ^ (k + 1) - 2 ^ k)) (by omega)
  rw [xor_two_pow_of_lt hb] at hlt
  omega

/-- The numbers below `P` keep a range exactly when it is made of blocks of the size of the
least power of two that is not below `P`. -/
theorem forall_xor_lt_iff (n P : ℕ) :
    (∀ p < P, ∀ a < n, a ^^^ p < n) ↔ 2 ^ Nat.clog 2 P ∣ n := by
  refine ⟨fun h => ?_, fun h p hp a ha => ?_⟩
  · by_cases hP : 1 < P
    · have hclog := Nat.clog_pos Nat.one_lt_two hP
      have hlt : 2 ^ (Nat.clog 2 P - 1) < P := Nat.pow_lt_of_lt_clog (by omega)
      have hdvd := dvd_of_forall_xor_two_pow_lt (h _ hlt)
      rwa [Nat.sub_add_cancel hclog] at hdvd
    · rw [Nat.clog_of_right_le_one (by omega)]
      exact one_dvd n
  · have hpK : p < 2 ^ Nat.clog 2 P := hp.trans_le (Nat.le_pow_clog Nat.one_lt_two P)
    have hpos := Nat.two_pow_pos (Nat.clog 2 P)
    obtain ⟨q, rfl⟩ := h
    rw [Nat.mul_comm] at ha ⊢
    rw [← Nat.div_lt_iff_lt_mul hpos] at ha ⊢
    rwa [Nat.xor_div_two_pow, Nat.div_eq_of_lt hpK, Nat.xor_zero]

/-- The same for numbers whose digit above the base `v` is changed. -/
theorem forall_digit_xor_lt_iff {v n : ℕ} (hv : 0 < v) (P : ℕ) :
    (∀ p < P, ∀ c < n, (c / v ^^^ p) * v + c % v < n) ↔
      P ≤ 1 ∨ v ∣ n ∧ 2 ^ Nat.clog 2 P ∣ n / v := by
  have hdecomp : n / v * v + n % v = n := by
    rw [Nat.mul_comm]
    exact Nat.div_add_mod n v
  have hr := Nat.mod_lt n hv
  have hdigits : ∀ a b, b < v → (a * v + b) / v = a ∧ (a * v + b) % v = b := by
    intro a b hb
    rw [Nat.mul_comm a v, Nat.mul_add_div hv, Nat.div_eq_of_lt hb, Nat.mul_add_mod,
      Nat.mod_eq_of_lt hb]
    exact ⟨rfl, rfl⟩
  refine ⟨fun h => ?_, ?_⟩
  · by_cases hP : P ≤ 1
    · exact .inl hP
    right
    have hdvd : v ∣ n := by
      by_contra hdvd
      have hrpos : 0 < n % v := Nat.pos_of_ne_zero fun hzero => hdvd (Nat.dvd_of_mod_eq_zero hzero)
      -- the block that is cut off would have to stay where it is
      have hcut := h 1 (by omega) (n / v * v + 0) (by omega)
      rw [(hdigits _ 0 hv).1, (hdigits _ 0 hv).2] at hcut
      have hle : n / v ^^^ 1 ≤ n / v := by
        by_contra hgt
        have : (n / v + 1) * v ≤ (n / v ^^^ 1) * v := Nat.mul_le_mul_right v (by omega)
        rw [Nat.add_mul, Nat.one_mul] at this
        omega
      have hne : n / v ^^^ 1 ≠ n / v := by
        intro heq
        have := congrArg (n / v ^^^ ·) heq
        simp only [← Nat.xor_assoc, Nat.xor_self, Nat.zero_xor] at this
        cases this
      have hlt : n / v ^^^ 1 < n / v := lt_of_le_of_ne hle hne
      have hfull : (n / v ^^^ 1) * v + (v - 1) < n := by
        have : ((n / v ^^^ 1) + 1) * v ≤ n / v * v := Nat.mul_le_mul_right v hlt
        rw [Nat.add_mul, Nat.one_mul] at this
        omega
      have hback := h 1 (by omega) _ hfull
      rw [(hdigits _ (v - 1) (by omega)).1, (hdigits _ (v - 1) (by omega)).2, Nat.xor_assoc,
        Nat.xor_self, Nat.xor_zero] at hback
      omega
    refine ⟨hdvd, (forall_xor_lt_iff _ P).mp fun p hp a ha => ?_⟩
    have hzero : n % v = 0 := Nat.mod_eq_zero_of_dvd hdvd
    have hav : a * v + 0 < n := by
      have : (a + 1) * v ≤ n / v * v := Nat.mul_le_mul_right v ha
      rw [Nat.add_mul, Nat.one_mul] at this
      omega
    have hlt := h p hp _ hav
    rw [(hdigits _ 0 hv).1, (hdigits _ 0 hv).2, Nat.add_zero] at hlt
    rw [← hdecomp, hzero, Nat.add_zero] at hlt
    exact Nat.lt_of_mul_lt_mul_right hlt
  · rintro (hP | ⟨hdvd, hblocks⟩) p hp c hc
    · obtain rfl : p = 0 := by omega
      rw [Nat.xor_zero, Nat.mul_comm, Nat.div_add_mod]
      exact hc
    · have hzero : n % v = 0 := Nat.mod_eq_zero_of_dvd hdvd
      have hclosed := (forall_xor_lt_iff _ P).mpr hblocks p hp (c / v)
        (Nat.div_lt_div_of_lt_of_dvd hdvd hc)
      have : (c / v ^^^ p) * v + v ≤ n / v * v := by
        rw [← Nat.succ_mul]
        exact Nat.mul_le_mul_right v hclosed
      have := Nat.mod_lt c hv
      omega

end TileLangNpuir
