import Mathlib.Analysis.Real.Sqrt
import Mathlib.Data.List.Sort
import Mathlib.Data.Nat.Factors
import Mathlib.Data.Nat.Sqrt

/-!
# Factors

`get_all_factors`, which `roller/policy/common.py` and `anneal/customtemplate.py` define by the
same text, and `factorize`. The divisors below the square root pair with the ones above it, so
the first list is the divisors in increasing order; the second is the prime factors.
-/

namespace TileLangNpuir.Carver

/-- `int(np.ceil(np.sqrt(n)))`. -/
def ceilSqrt (n : ℕ) : ℕ := if n.sqrt * n.sqrt = n then n.sqrt else n.sqrt + 1

/-- `val`: the divisors below the rounded root, found by their positions in `np.arange(1, n0)`. -/
def smallFactors (n : ℕ) : List ℕ :=
  ((List.range (ceilSqrt n - 1)).filter fun k => n % (k + 1) = 0).map (· + 1)

/-- `get_all_factors`. -/
def getAllFactors (n : ℕ) : List ℕ :=
  let n0 := ceilSqrt n
  let val := smallFactors n
  let mid := if n0 * n0 ≠ n then [] else [n0]
  val ++ mid ++ val.reverse.map (n / ·)

/-- The loop of `factorize`. -/
def factorizeLoop : (fuel n i : ℕ) → List ℕ → Option (List ℕ)
  | 0, _, _, _ => none
  | fuel + 1, n, i, result =>
    if 1 < n then
      if n % i = 0 then factorizeLoop fuel (n / i) i (result ++ [i])
      else factorizeLoop fuel n (i + 1) result
    else some result

/-- `factorize`. -/
def factorize (fuel n : ℕ) : Option (List ℕ) := factorizeLoop fuel n 2 []

/-! ## Divisors around the root -/

section

variable {n d : ℕ}

theorem lt_ceilSqrt_iff : d < ceilSqrt n ↔ d * d < n := by
  have hle := Nat.sqrt_le n
  unfold ceilSqrt
  split
  · rename_i hsquare
    refine ⟨fun h => ?_, fun h => ?_⟩
    · rw [← hsquare]
      exact Nat.mul_self_lt_mul_self h
    · rw [← hsquare] at h
      exact Nat.mul_self_lt_mul_self_iff.mp h
  · rename_i hsquare
    rw [Nat.lt_succ_iff]
    refine ⟨fun h => ?_, fun h => Nat.le_sqrt.mpr h.le⟩
    exact lt_of_le_of_lt (Nat.mul_self_le_mul_self h) (lt_of_le_of_ne hle hsquare)

/-- It is the root, rounded up. -/
theorem ceilSqrt_eq_ceil (n : ℕ) : ceilSqrt n = ⌈Real.sqrt n⌉₊ := by
  refine eq_of_forall_lt_iff fun d => ?_
  rw [lt_ceilSqrt_iff, Nat.lt_ceil, Real.lt_sqrt (Nat.cast_nonneg d), pow_two, ← Nat.cast_mul,
    Nat.cast_lt]

theorem mem_smallFactors : d ∈ smallFactors n ↔ 0 < d ∧ d * d < n ∧ d ∣ n := by
  unfold smallFactors
  simp only [List.mem_map, List.mem_filter, List.mem_range, decide_eq_true_eq]
  refine ⟨?_, ?_⟩
  · rintro ⟨k, ⟨hk, hmod⟩, rfl⟩
    exact ⟨Nat.succ_pos k, lt_ceilSqrt_iff.mp (by omega), Nat.dvd_of_mod_eq_zero hmod⟩
  · rintro ⟨hpos, hlt, hdvd⟩
    have := lt_ceilSqrt_iff.mpr hlt
    refine ⟨d - 1, ⟨by omega, ?_⟩, by omega⟩
    rw [Nat.sub_add_cancel hpos]
    exact Nat.mod_eq_zero_of_dvd hdvd

theorem sorted_smallFactors (n : ℕ) : (smallFactors n).Pairwise (· < ·) :=
  ((List.pairwise_lt_range.filter _).map _) fun _ _ h => Nat.succ_lt_succ h

theorem mem_mid : d ∈ (if ceilSqrt n * ceilSqrt n ≠ n then [] else [ceilSqrt n]) ↔ d * d = n := by
  split
  · rename_i h
    refine ⟨nofun, fun hd => absurd ?_ h⟩
    have hroot : ceilSqrt n = d := by
      rw [← hd, ceilSqrt, Nat.sqrt_eq, if_pos rfl]
    rw [hroot, hd]
  · rename_i h
    rw [not_not] at h
    rw [List.mem_singleton]
    refine ⟨fun hd => by rw [hd, h], fun hd => ?_⟩
    rw [← h] at hd
    exact Nat.mul_self_inj.mp hd

/-- The cofactors of the small divisors are the divisors above the root. -/
theorem mem_cofactors (hn : 0 < n) :
    d ∈ (smallFactors n).reverse.map (n / ·) ↔ n < d * d ∧ d ∣ n := by
  simp only [List.mem_map, List.mem_reverse, mem_smallFactors]
  refine ⟨?_, ?_⟩
  · rintro ⟨e, ⟨hpos, hlt, c, rfl⟩, rfl⟩
    rw [Nat.mul_div_cancel_left c hpos]
    have hec : e < c := Nat.lt_of_mul_lt_mul_left hlt
    exact ⟨Nat.mul_lt_mul_of_pos_right hec (by omega), Dvd.intro_left e rfl⟩
  · rintro ⟨hlt, c, rfl⟩
    have hd : 0 < d := Nat.pos_of_mul_pos_right hn
    have hc : 0 < c := Nat.pos_of_mul_pos_left hn
    have hcd : c < d := Nat.lt_of_mul_lt_mul_left hlt
    exact ⟨c, ⟨hc, Nat.mul_lt_mul_of_pos_right hcd hc, Dvd.intro_left d rfl⟩,
      Nat.mul_div_cancel d hc⟩

theorem mem_getAllFactors (hn : 0 < n) : d ∈ getAllFactors n ↔ d ∣ n := by
  simp only [getAllFactors, List.mem_append, mem_smallFactors, mem_mid, mem_cofactors hn]
  refine ⟨?_, fun h => ?_⟩
  · rintro ((h | h) | h)
    · exact h.2.2
    · exact ⟨d, h.symm⟩
    · exact h.2
  · have hpos := Nat.pos_of_dvd_of_pos h hn
    rcases lt_trichotomy (d * d) n with hlt | heq | hgt
    · exact .inl (.inl ⟨hpos, hlt, h⟩)
    · exact .inl (.inr heq)
    · exact .inr ⟨hgt, h⟩

/-- The divisors come in increasing order: the small ones, the root, and the cofactors. -/
theorem sorted_getAllFactors (hn : 0 < n) : (getAllFactors n).Pairwise (· < ·) := by
  have hlt : ∀ {a b : ℕ}, a * a < b * b → a < b := fun h => Nat.mul_self_lt_mul_self_iff.mp h
  refine List.pairwise_append.mpr ⟨List.pairwise_append.mpr ⟨sorted_smallFactors n, ?_, ?_⟩, ?_, ?_⟩
  · split
    · exact .nil
    · exact List.pairwise_singleton _ _
  · intro a ha b hb
    refine hlt ?_
    rw [mem_mid.mp hb]
    exact (mem_smallFactors.mp ha).2.1
  · rw [List.pairwise_map, List.pairwise_reverse]
    refine (sorted_smallFactors n).imp_of_mem fun {a b} ha hb hab => ?_
    obtain ⟨hapos, -, c, hc⟩ := mem_smallFactors.mp ha
    obtain ⟨hbpos, -, e, he⟩ := mem_smallFactors.mp hb
    have hepos : 0 < e := Nat.pos_of_mul_pos_left (he ▸ hn)
    have hcdiv : n / a = c := Nat.div_eq_of_eq_mul_right hapos hc
    have hediv : n / b = e := Nat.div_eq_of_eq_mul_right hbpos he
    rw [hcdiv, hediv]
    by_contra hec
    have : a * c < b * e := Nat.mul_lt_mul_of_lt_of_le hab (by omega) hepos
    omega
  · intro a ha b hb
    refine hlt (lt_of_le_of_lt ?_ ((mem_cofactors hn).mp hb).1)
    rcases List.mem_append.mp ha with ha | ha
    · exact (mem_smallFactors.mp ha).2.1.le
    · exact (mem_mid.mp ha).le

end

/-! ## Prime factors -/

/-- While no factor of what is left lies below the counter, the loop appends the prime factors of
what is left. -/
theorem factorizeLoop_eq (fuel : ℕ) : ∀ {n i : ℕ} (result : List ℕ), 0 < n → 2 ≤ i →
    (∀ p, p.Prime → p ∣ n → i ≤ p) → n + (n - i) < fuel →
      factorizeLoop fuel n i result = some (result ++ n.primeFactorsList) := by
  induction fuel with
  | zero =>
    intro n i result _ _ _ hfuel
    exact absurd hfuel (Nat.not_lt_zero _)
  | succ fuel ih =>
    intro n i result hn hi hmin hfuel
    rw [factorizeLoop]
    split
    · rename_i hlarge
      have hle : i ≤ n.minFac := hmin _ (Nat.minFac_prime (by omega)) n.minFac_dvd
      split
      · rename_i hmod
        have hdvd : i ∣ n := Nat.dvd_of_mod_eq_zero hmod
        have hminFac : n.minFac = i := le_antisymm (Nat.minFac_le_of_dvd hi hdvd) hle
        obtain ⟨c, rfl⟩ := hdvd
        have hc : 0 < c := Nat.pos_of_mul_pos_left hn
        have hdiv : i * c / i = c := Nat.mul_div_cancel_left c (by omega)
        have hsmall : 2 * c ≤ i * c := Nat.mul_le_mul_right c hi
        rw [hdiv, ih (result ++ [i]) hc hi (fun p hp hpc => hmin p hp (Dvd.dvd.mul_left hpc i))
          (by omega)]
        have hlist : (i * c).primeFactorsList = i :: c.primeFactorsList := by
          obtain ⟨k, hk⟩ : ∃ k, i * c = k + 2 := ⟨i * c - 2, by omega⟩
          rw [hk, Nat.primeFactorsList, ← hk, hminFac, hdiv]
        rw [hlist, List.append_assoc, List.singleton_append]
      · rename_i hmod
        have hne : ∀ p, p.Prime → p ∣ n → i ≠ p := by
          rintro p - hpn rfl
          exact hmod (Nat.mod_eq_zero_of_dvd hpn)
        have hlt : i < n := by
          have hprime := Nat.minFac_prime (n := n) (by omega)
          exact lt_of_lt_of_le (lt_of_le_of_ne hle (hne _ hprime n.minFac_dvd))
            (Nat.minFac_le hn)
        exact ih result hn (by omega)
          (fun p hp hpn => lt_of_le_of_ne (hmin p hp hpn) (hne p hp hpn)) (by omega)
    · rename_i hsmall
      obtain rfl : n = 1 := by omega
      simp

theorem factorize_eq {fuel n : ℕ} (hn : 0 < n) (hfuel : 2 * n ≤ fuel) :
    factorize fuel n = some n.primeFactorsList := by
  rw [factorize, factorizeLoop_eq fuel [] hn (le_refl 2) (fun p hp _ => hp.two_le) (by omega)]
  rfl

end TileLangNpuir.Carver
