import Mathlib.Algebra.BigOperators.Group.Finset.Basic
import Mathlib.Algebra.BigOperators.Ring.Finset
import Mathlib.Algebra.Order.BigOperators.Group.Finset
import Mathlib.Algebra.Order.Ring.Int
import Mathlib.Order.Bounds.Basic
import Mathlib.Tactic.Linarith
import Mathlib.Tactic.Ring

/-!
# Affine expressions

Affine expressions over integer variables: evaluation, substitution, and the exact range of an
expression whose variables range over intervals independently of each other.
-/

namespace TileLangNpuir

/-- An affine expression over the variables `V`. -/
inductive Affine (V : Type) : Type where
  | var (v : V)
  | const (n : ℤ)
  | add (a b : Affine V)
  | sub (a b : Affine V)
  | mul (c : ℤ) (a : Affine V)
  deriving DecidableEq

/-- The intervals of the variables. -/
abbrev Intervals (V : Type) := V → ℤ × ℤ

/-- A valuation within the intervals. -/
def Intervals.Contains {V : Type} (env : Intervals V) (ρ : V → ℤ) : Prop :=
  ∀ v, (env v).1 ≤ ρ v ∧ ρ v ≤ (env v).2

/-- Each interval has a point. -/
def Intervals.Nonempty {V : Type} (env : Intervals V) : Prop := ∀ v, (env v).1 ≤ (env v).2

theorem Intervals.Nonempty.contains {V : Type} {env : Intervals V} (h : env.Nonempty) :
    env.Contains fun v => (env v).1 := fun v => ⟨le_rfl, h v⟩

/-- A valuation may be changed within the intervals. -/
theorem Intervals.Contains.ite {V : Type} {env : Intervals V} {ρ σ : V → ℤ} (hρ : env.Contains ρ)
    {s : V → Prop} [DecidablePred s] (hσ : ∀ v, s v → (env v).1 ≤ σ v ∧ σ v ≤ (env v).2) :
    env.Contains fun v => if s v then σ v else ρ v := by
  intro v
  dsimp only
  split
  · exact hσ v ‹_›
  · exact hρ v

namespace Affine

variable {V : Type} {ρ σ : V → ℤ}

def eval (ρ : V → ℤ) : Affine V → ℤ
  | var v => ρ v
  | const n => n
  | add a b => a.eval ρ + b.eval ρ
  | sub a b => a.eval ρ - b.eval ρ
  | mul c a => c * a.eval ρ

def subst (f : V → Affine V) : Affine V → Affine V
  | var v => f v
  | const n => const n
  | add a b => add (a.subst f) (b.subst f)
  | sub a b => sub (a.subst f) (b.subst f)
  | mul c a => mul c (a.subst f)

def vars : Affine V → List V
  | var v => [v]
  | const _ => []
  | add a b => a.vars ++ b.vars
  | sub a b => a.vars ++ b.vars
  | mul _ a => a.vars

theorem eval_congr {e : Affine V} (h : ∀ v ∈ e.vars, ρ v = σ v) : e.eval ρ = e.eval σ := by
  induction e with
  | var v => exact h v List.mem_cons_self
  | const n => rfl
  | add a b iha ihb =>
    rw [vars, List.forall_mem_append] at h
    rw [eval, eval, iha h.1, ihb h.2]
  | sub a b iha ihb =>
    rw [vars, List.forall_mem_append] at h
    rw [eval, eval, iha h.1, ihb h.2]
  | mul c a ih => rw [eval, eval, ih h]

theorem eval_subst (f : V → Affine V) (ρ : V → ℤ) (e : Affine V) :
    (e.subst f).eval ρ = e.eval fun v => (f v).eval ρ := by
  induction e with
  | var v => rfl
  | const n => rfl
  | add a b iha ihb => rw [subst, eval, eval, iha, ihb]
  | sub a b iha ihb => rw [subst, eval, eval, iha, ihb]
  | mul c a ih => rw [subst, eval, eval, ih]

/-! ## The exact range -/

variable [DecidableEq V]

/-- The constant part. -/
def constant : Affine V → ℤ
  | var _ => 0
  | const n => n
  | add a b => a.constant + b.constant
  | sub a b => a.constant - b.constant
  | mul c a => c * a.constant

/-- The coefficient of a variable. -/
def coeff (v : V) : Affine V → ℤ
  | var u => if u = v then 1 else 0
  | const _ => 0
  | add a b => a.coeff v + b.coeff v
  | sub a b => a.coeff v - b.coeff v
  | mul c a => c * a.coeff v

theorem eval_eq_sum (ρ : V → ℤ) (e : Affine V) {s : Finset V} (h : ∀ v ∈ e.vars, v ∈ s) :
    e.eval ρ = e.constant + ∑ v ∈ s, e.coeff v * ρ v := by
  induction e with
  | var v =>
    simp only [eval, constant, coeff, ite_mul, one_mul, zero_mul, Finset.sum_ite_eq, zero_add]
    rw [if_pos (h v List.mem_cons_self)]
  | const n => simp [eval, constant, coeff]
  | add a b iha ihb =>
    rw [vars, List.forall_mem_append] at h
    simp only [eval, constant, coeff, add_mul, Finset.sum_add_distrib, iha h.1, ihb h.2]
    ring
  | sub a b iha ihb =>
    rw [vars, List.forall_mem_append] at h
    simp only [eval, constant, coeff, sub_mul, Finset.sum_sub_distrib, iha h.1, ihb h.2]
    ring
  | mul c a ih =>
    simp only [eval, constant, coeff, mul_assoc, ← Finset.mul_sum, ih h]
    ring

/-- The least value that a multiple of a variable takes in an interval. -/
def leastTerm (c : ℤ) (i : ℤ × ℤ) : ℤ := if 0 ≤ c then c * i.1 else c * i.2

/-- The least and the greatest value; the greatest is the least of the negated expression. -/
def range (env : Intervals V) (e : Affine V) : ℤ × ℤ :=
  (e.constant + ∑ v ∈ e.vars.toFinset, leastTerm (e.coeff v) (env v),
    e.constant - ∑ v ∈ e.vars.toFinset, leastTerm (-e.coeff v) (env v))

theorem leastTerm_le {c x : ℤ} {i : ℤ × ℤ} (h : i.1 ≤ x ∧ x ≤ i.2) : leastTerm c i ≤ c * x := by
  unfold leastTerm
  split
  · exact mul_le_mul_of_nonneg_left h.1 ‹_›
  · exact mul_le_mul_of_nonpos_left h.2 (by omega)

/-- The values of an expression. -/
def Values (env : Intervals V) (e : Affine V) : Set ℤ := {x | ∃ ρ, env.Contains ρ ∧ e.eval ρ = x}

theorem isLeast_range {env : Intervals V} (h : env.Nonempty) (e : Affine V) :
    IsLeast (Values env e) (e.range env).1 := by
  refine ⟨⟨fun v => if 0 ≤ e.coeff v then (env v).1 else (env v).2, fun v => ?_, ?_⟩, ?_⟩
  · dsimp only
    split
    · exact ⟨le_rfl, h v⟩
    · exact ⟨h v, le_rfl⟩
  · rw [eval_eq_sum _ _ fun v => List.mem_toFinset.mpr, range]
    congr 1
    refine Finset.sum_congr rfl fun v _ => ?_
    rw [leastTerm, mul_ite]
  · rintro _ ⟨ρ, hρ, rfl⟩
    rw [eval_eq_sum ρ e fun v => List.mem_toFinset.mpr, range]
    exact add_le_add_right (Finset.sum_le_sum fun v _ => leastTerm_le (hρ v)) _

theorem isGreatest_range {env : Intervals V} (h : env.Nonempty) (e : Affine V) :
    IsGreatest (Values env e) (e.range env).2 := by
  refine ⟨⟨fun v => if 0 ≤ -e.coeff v then (env v).1 else (env v).2, fun v => ?_, ?_⟩, ?_⟩
  · dsimp only
    split
    · exact ⟨le_rfl, h v⟩
    · exact ⟨h v, le_rfl⟩
  · rw [eval_eq_sum _ _ fun v => List.mem_toFinset.mpr, range, sub_eq_add_neg,
      ← Finset.sum_neg_distrib]
    congr 1
    refine Finset.sum_congr rfl fun v _ => ?_
    rw [leastTerm, mul_ite]
    split
    · ring
    · ring
  · rintro _ ⟨ρ, hρ, rfl⟩
    rw [eval_eq_sum ρ e fun v => List.mem_toFinset.mpr, range, sub_eq_add_neg,
      ← Finset.sum_neg_distrib]
    refine add_le_add_right (Finset.sum_le_sum fun v _ => ?_) _
    have hleast := leastTerm_le (c := -e.coeff v) (hρ v)
    linarith

end Affine

end TileLangNpuir
