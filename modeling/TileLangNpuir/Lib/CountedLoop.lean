import Mathlib.Data.Int.Basic

/-!
# Counted loops

A loop that runs a body a fixed number of times with a consecutive integer
counter, and the rule that relates two such loops step by step.
-/

namespace TileLangNpuir

universe u v

/-- Run `step i`, `step (i + 1)`, …, `n` times in all. -/
def countLoop {α : Type u} (step : ℤ → α → α) : ℕ → ℤ → α → α
  | 0, _, a => a
  | n + 1, i, a => countLoop step n (i + 1) (step i a)

/-- Two loops with the same trip count keep any relation their bodies keep for the
values the counter takes. -/
theorem countLoop_rel_of_bounds {α : Type u} {β : Type v} {f : ℤ → α → α} {g : ℤ → β → β}
    {R : α → β → Prop} :
    ∀ (n : ℕ) (i : ℤ) (a : α) (b : β),
      (∀ j, i ≤ j → j < i + n → ∀ a b, R a b → R (f j a) (g j b)) → R a b →
        R (countLoop f n i a) (countLoop g n i b) := by
  intro n
  induction n with
  | zero =>
    intro i a b _ h
    exact h
  | succ n ih =>
    intro i a b hstep h
    refine ih (i + 1) _ _ (fun j hj hj' => hstep j (by omega) (by omega)) ?_
    exact hstep i (Int.le_refl i) (by omega) a b h

/-- Two loops with the same trip count keep any relation their bodies keep. -/
theorem countLoop_rel {α : Type u} {β : Type v} {f : ℤ → α → α} {g : ℤ → β → β}
    {R : α → β → Prop} (hstep : ∀ i a b, R a b → R (f i a) (g i b)) (n : ℕ) (i : ℤ) (a : α)
    (b : β) (h : R a b) : R (countLoop f n i a) (countLoop g n i b) :=
  countLoop_rel_of_bounds n i a b (fun j _ _ => hstep j) h

/-- A loop keeps any property its body keeps. -/
theorem countLoop_inv {α : Type u} {f : ℤ → α → α} {P : α → Prop}
    (hstep : ∀ i a, P a → P (f i a)) (n : ℕ) (i : ℤ) (a : α) (h : P a) :
    P (countLoop f n i a) :=
  countLoop_rel (g := f) (R := fun a _ => P a) (fun i a _ => hstep i a) n i a a h

/-- Two bodies that agree on the states one of the loops goes through make the same loop. -/
theorem countLoop_congr_along {α : Type u} {f g : ℤ → α → α} (n : ℕ) (i : ℤ) (a : α)
    (h : ∀ k < n, f (i + k) (countLoop g k i a) = g (i + k) (countLoop g k i a)) :
    countLoop f n i a = countLoop g n i a := by
  induction n generalizing i a with
  | zero => rfl
  | succ n ih =>
    have hfirst : f i a = g i a := by
      have := h 0 (by omega)
      rwa [Int.natCast_zero, Int.add_zero] at this
    rw [countLoop, countLoop, hfirst]
    refine ih (i + 1) (g i a) fun k hk => ?_
    have := h (k + 1) (by omega)
    rwa [countLoop, show i + ((k + 1 : ℕ) : ℤ) = i + 1 + k by omega] at this

/-- A loop whose body only acts below a bound may stop at the bound. -/
theorem countLoop_guard {α : Type u} (f : ℤ → α → α) (v : ℤ) (n : ℕ) (i : ℤ) (a : α) :
    countLoop (fun k a => if k < v then f k a else a) n i a =
      countLoop f (min v (i + n) - i).toNat i a := by
  induction n generalizing i a with
  | zero =>
    have htrips : (min v (i + (0 : ℕ)) - i).toNat = 0 := by omega
    rw [htrips]
    rfl
  | succ n ih =>
    rw [countLoop, ih]
    by_cases hv : i < v
    · have htrips : (min v (i + (n + 1 : ℕ)) - i).toNat = (min v (i + 1 + n) - (i + 1)).toNat + 1 := by
        omega
      rw [if_pos hv, htrips, countLoop]
    · have htrips : (min v (i + (n + 1 : ℕ)) - i).toNat = 0 := by omega
      have htrips' : (min v (i + 1 + n) - (i + 1)).toNat = 0 := by omega
      rw [if_neg hv, htrips, htrips', countLoop, countLoop]

end TileLangNpuir
