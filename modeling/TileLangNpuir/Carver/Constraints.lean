import Mathlib.Algebra.BigOperators.Group.List.Basic
import Mathlib.Data.Rat.Defs
import Mathlib.Algebra.Order.Ring.Rat
import Mathlib.Tactic.NormNum

/-!
# Memory constraints

The polynomial and function terms that a template describes its memory with
(`anneal/customtemplate.py`), and `check_valid`, which compares them with the capacities. Numbers
are exact.

`PolyConstraintsSet.calc_results` adds the terms of `func_mul` where it should multiply by them,
so a set is evaluated as described exactly when its `func_mul` terms add what they should
multiply by.
-/

namespace TileLangNpuir.Carver

/-- What may be raised. -/
inductive Error : Type where
  | valueError (message : String)
  | typeError (message : String)
  | indexError (message : String)
  | zeroDivisionError
  deriving DecidableEq

/-- `PolyConstraints`. -/
structure PolyConstraints : Type where
  polynomial : List ℤ
  otherValue : List ℚ

/-- `FuncConstraints`. A `func` of `none` is one that is not callable. -/
structure FuncConstraints : Type where
  usingTile : List ℤ
  otherValue : List ℚ
  func : Option (List ℤ → Except Error ℚ)

/-- `PolyConstraintsSet`. -/
structure PolyConstraintsSet : Type where
  polyAdd : List PolyConstraints
  polyMul : List PolyConstraints
  funcAdd : List FuncConstraints
  funcMul : List FuncConstraints

/-- `pow`. -/
def pow (x y : ℤ) : Except Error ℚ :=
  if x = 0 ∧ y < 0 then .error .zeroDivisionError else .ok ((x : ℚ) ^ y)

/-- `PolyConstraints.calc_results`. -/
def PolyConstraints.calcResults (c : PolyConstraints) (tile : List ℤ) : Except Error ℚ := do
  if tile.length ≠ c.polynomial.length then
    throw (.valueError "tile len should be same as polynomial constraints!")
  let value ← (tile.zip c.polynomial).foldlM
    (fun value p => do let power ← pow (p.1 * 16) p.2; pure (value * power)) (1 : ℚ)
  return c.otherValue.foldl (· * ·) value

/-- `idx`: the chosen entries of the tile, times 16. -/
def FuncConstraints.idx (c : FuncConstraints) (tile : List ℤ) : List ℤ :=
  c.usingTile.map fun k => if 0 < k then tile.getD (k.toNat - 1) 0 * 16 else 0

/-- `FuncConstraints.calc_results`. -/
def FuncConstraints.calcResults (c : FuncConstraints) (tile : List ℤ) : Except Error ℚ :=
  match c.func with
  | none => throw (.typeError "func must be callable")
  | some func =>
    match c.usingTile.max? with
    | none => throw (.valueError "max() iterable argument is empty")
    | some top => do
      if (tile.length : ℤ) < top then
        throw (.valueError "using_tile position should be less then tile len!")
      let value ← func (c.idx tile)
      return c.otherValue.foldl (· * ·) value

/-- `PolyConstraintsSet.calc_results`. The last loop adds. -/
def PolyConstraintsSet.calcResults (s : PolyConstraintsSet) (tile : List ℤ) : Except Error ℚ := do
  let value := (0 : ℚ)
  let value ← s.polyAdd.foldlM (fun value c => do let x ← c.calcResults tile; pure (value + x)) value
  let value ← s.funcAdd.foldlM (fun value c => do let x ← c.calcResults tile; pure (value + x)) value
  let value ← s.polyMul.foldlM (fun value c => do let x ← c.calcResults tile; pure (value * x)) value
  s.funcMul.foldlM (fun value c => do let x ← c.calcResults tile; pure (value + x)) value

/-- `check_valid`: the sets and the capacities are zipped strictly. -/
def checkValid (customMemMultiply : ℚ) :
    List PolyConstraintsSet → List ℚ → List ℤ → Except Error Bool
  | [], [], _ => pure true
  | constraints :: sets, cap :: caps, cfg => do
    let value ← constraints.calcResults cfg
    if cap < value * customMemMultiply then pure false
    else checkValid customMemMultiply sets caps cfg
  | _, _, _ => throw (.valueError "zip() arguments have different lengths")

/-! ## What the constraints describe -/

/-- The monomial at 16 times the tile, with its coefficients. -/
def PolyConstraints.value (c : PolyConstraints) (tile : List ℤ) : ℚ :=
  (List.zipWith (fun x y => ((16 * x : ℤ) : ℚ) ^ y) tile c.polynomial).prod * c.otherValue.prod

/-- The function at the chosen entries of 16 times the tile, with its coefficients. -/
def FuncConstraints.value (c : FuncConstraints) (tile : List ℤ) : ℚ :=
  match c.func with
  | none => 0
  | some func =>
    match func (c.idx tile) with
    | .ok v => v * c.otherValue.prod
    | .error _ => 0

namespace PolyConstraintsSet

variable (s : PolyConstraintsSet) (tile : List ℤ)

/-- The value of the additive terms, times the polynomial factors. -/
def base : ℚ :=
  ((s.polyAdd.map (·.value tile)).sum + (s.funcAdd.map (·.value tile)).sum) *
    (s.polyMul.map (·.value tile)).prod

/-- The sum of the additive terms, times the product of the multiplicative ones. -/
def described : ℚ := s.base tile * (s.funcMul.map (·.value tile)).prod

/-- No term raises. -/
def Evaluates : Prop :=
  (∀ c ∈ s.polyAdd ++ s.polyMul, (c.calcResults tile).isOk = true) ∧
    ∀ c ∈ s.funcAdd ++ s.funcMul, (c.calcResults tile).isOk = true

/-- The same terms in another order. -/
structure Reorders (s' : PolyConstraintsSet) : Prop where
  polyAdd : s.polyAdd.Perm s'.polyAdd
  polyMul : s.polyMul.Perm s'.polyMul
  funcAdd : s.funcAdd.Perm s'.funcAdd
  funcMul : s.funcMul.Perm s'.funcMul

end PolyConstraintsSet

/-! ## The loops -/

section

variable {α : Type} {f : α → Except Error ℚ} {g : α → ℚ} {l : List α}

theorem foldlM_add (h : ∀ x ∈ l, f x = .ok (g x)) (a : ℚ) :
    l.foldlM (fun value x => do let y ← f x; pure (value + y)) a = .ok (a + (l.map g).sum) := by
  induction l generalizing a with
  | nil => simp [pure, Except.pure]
  | cons x l ih =>
    have hstep := ih (fun y hy => h y (List.mem_cons_of_mem x hy)) (a + g x)
    rw [List.foldlM_cons, h x List.mem_cons_self]
    rw [add_assoc, ← List.sum_cons, ← List.map_cons] at hstep
    exact hstep

theorem foldlM_mul (h : ∀ x ∈ l, f x = .ok (g x)) (a : ℚ) :
    l.foldlM (fun value x => do let y ← f x; pure (value * y)) a = .ok (a * (l.map g).prod) := by
  induction l generalizing a with
  | nil => simp [pure, Except.pure]
  | cons x l ih =>
    have hstep := ih (fun y hy => h y (List.mem_cons_of_mem x hy)) (a * g x)
    rw [List.foldlM_cons, h x List.mem_cons_self]
    rw [mul_assoc, ← List.prod_cons, ← List.map_cons] at hstep
    exact hstep

theorem isOk_iff {e : Except Error ℚ} : e.isOk = true ↔ ∃ v, e = .ok v := by
  cases e with
  | error err => exact ⟨nofun, nofun⟩
  | ok v => exact ⟨fun _ => ⟨v, rfl⟩, fun _ => rfl⟩

end

section

variable {tile : List ℤ}

theorem foldl_mul (l : List ℚ) (a : ℚ) : l.foldl (· * ·) a = a * l.prod := by
  induction l generalizing a with
  | nil => simp
  | cons x l ih => rw [List.foldl_cons, ih, List.prod_cons, mul_assoc]

theorem PolyConstraints.calcResults_eq {c : PolyConstraints}
    (h : (c.calcResults tile).isOk = true) : c.calcResults tile = .ok (c.value tile) := by
  have hpow : ∀ {l : List (ℤ × ℤ)} {a v : ℚ},
      l.foldlM (fun value p => do let power ← pow (p.1 * 16) p.2; pure (value * power)) a = .ok v →
        v = a * (l.map fun p => ((16 * p.1 : ℤ) : ℚ) ^ p.2).prod := by
    intro l
    induction l with
    | nil =>
      intro a v h
      rw [← Except.ok.inj h]
      simp
    | cons p l ih =>
      intro a v h
      rw [List.foldlM_cons, pow] at h
      split at h
      · cases h
      · rw [ih h, List.map_cons, List.prod_cons, Int.mul_comm 16, mul_assoc]
  obtain ⟨v, hv⟩ := isOk_iff.mp h
  rw [hv]
  rw [calcResults] at hv
  split at hv
  · cases hv
  · cases hfold : (tile.zip c.polynomial).foldlM
      (fun value p => do let power ← pow (p.1 * 16) p.2; pure (value * power)) (1 : ℚ) with
    | error e =>
      simp only [hfold] at hv
      cases hv
    | ok w =>
      simp only [hfold] at hv
      obtain rfl := Except.ok.inj hv
      rw [foldl_mul, hpow hfold, one_mul, value, List.map_zip_eq_zipWith]
      rfl

theorem FuncConstraints.calcResults_eq {c : FuncConstraints}
    (h : (c.calcResults tile).isOk = true) : c.calcResults tile = .ok (c.value tile) := by
  obtain ⟨v, hv⟩ := isOk_iff.mp h
  rw [hv]
  rw [calcResults] at hv
  split at hv
  · cases hv
  · rename_i func hfunc
    split at hv
    · cases hv
    · split at hv
      · cases hv
      · cases hresult : func (c.idx tile) with
        | error e =>
          rw [hresult] at hv
          cases hv
        | ok w =>
          rw [hresult] at hv
          obtain rfl := Except.ok.inj hv
          rw [value, hfunc]
          simp only [hresult, foldl_mul]

namespace PolyConstraintsSet

variable {s s' : PolyConstraintsSet}

/-- What `calc_results` returns. -/
theorem calcResults_eq (h : s.Evaluates tile) :
    s.calcResults tile = .ok (s.base tile + (s.funcMul.map (·.value tile)).sum) := by
  obtain ⟨hpoly, hfunc⟩ := h
  have hpolyAdd : ∀ c ∈ s.polyAdd, c.calcResults tile = .ok (c.value tile) := fun c hc =>
    c.calcResults_eq (hpoly c (List.mem_append_left _ hc))
  have hpolyMul : ∀ c ∈ s.polyMul, c.calcResults tile = .ok (c.value tile) := fun c hc =>
    c.calcResults_eq (hpoly c (List.mem_append_right _ hc))
  have hfuncAdd : ∀ c ∈ s.funcAdd, c.calcResults tile = .ok (c.value tile) := fun c hc =>
    c.calcResults_eq (hfunc c (List.mem_append_left _ hc))
  have hfuncMul : ∀ c ∈ s.funcMul, c.calcResults tile = .ok (c.value tile) := fun c hc =>
    c.calcResults_eq (hfunc c (List.mem_append_right _ hc))
  have hok : ∀ (a : ℚ) (f : ℚ → Except Error ℚ), (.ok a >>= f) = f a := fun _ _ => rfl
  simp only [calcResults, foldlM_add hpolyAdd, foldlM_add hfuncAdd, foldlM_mul hpolyMul,
    foldlM_add hfuncMul, hok, base, zero_add]

theorem Reorders.evaluates (hs : s.Reorders s') (h : s.Evaluates tile) : s'.Evaluates tile := by
  refine ⟨fun c hc => h.1 c ?_, fun c hc => h.2 c ?_⟩
  · exact (hs.polyAdd.append hs.polyMul).mem_iff.mpr hc
  · exact (hs.funcAdd.append hs.funcMul).mem_iff.mpr hc

/-- The order of the terms does not matter. -/
theorem Reorders.calcResults (hs : s.Reorders s') (h : s.Evaluates tile) :
    s'.calcResults tile = s.calcResults tile := by
  rw [calcResults_eq h, calcResults_eq (hs.evaluates h), base, base,
    (hs.polyAdd.map (·.value tile)).sum_eq, (hs.polyMul.map (·.value tile)).prod_eq,
    (hs.funcAdd.map (·.value tile)).sum_eq, (hs.funcMul.map (·.value tile)).sum_eq]

/-- A set is evaluated as described exactly when adding the `func_mul` terms comes to the same as
multiplying by them. -/
theorem calcResults_described_iff (h : s.Evaluates tile) :
    s.calcResults tile = .ok (s.described tile) ↔
      (s.funcMul.map (·.value tile)).sum =
        s.base tile * ((s.funcMul.map (·.value tile)).prod - 1) := by
  rw [calcResults_eq h, described, mul_sub, mul_one, eq_sub_iff_add_eq']
  exact ⟨Except.ok.inj, congrArg _⟩

end PolyConstraintsSet

/-- Where the sets are evaluated as described, the tiles are accepted whose described values are
within the capacities. -/
theorem checkValid_eq {customMemMultiply : ℚ} :
    ∀ {sets : List PolyConstraintsSet} {caps : List ℚ}, sets.length = caps.length →
      (∀ s ∈ sets, s.calcResults tile = .ok (s.described tile)) →
        (checkValid customMemMultiply sets caps tile = .ok true ↔
          ∀ p ∈ sets.zip caps, p.1.described tile * customMemMultiply ≤ p.2) := by
  intro sets
  induction sets with
  | nil =>
    intro caps hlen _
    obtain rfl := List.length_eq_zero_iff.mp hlen.symm
    exact ⟨fun _ p hp => (nomatch hp), fun _ => rfl⟩
  | cons s sets ih =>
    intro caps hlen hsets
    cases caps with
    | nil => cases hlen
    | cons cap caps =>
      have hrest := ih (Nat.succ.inj hlen) fun t ht => hsets t (List.mem_cons_of_mem s ht)
      rw [checkValid, hsets s List.mem_cons_self]
      simp only [bind, Except.bind, List.zip_cons_cons, List.forall_mem_cons]
      split
      · rename_i hlt
        exact ⟨fun h => (nomatch h), fun h => absurd h.1 (not_le.mpr hlt)⟩
      · rename_i hle
        rw [hrest, and_iff_right (not_lt.mp hle)]

end

/-- The constraints of a matrix product, with the factor that a function of the tile gives. -/
def doubledProduct : PolyConstraintsSet where
  polyAdd := [⟨[1, 0, 1], [2]⟩, ⟨[0, 1, 1], [2]⟩]
  polyMul := []
  funcAdd := []
  funcMul := []

/-- One additive and one multiplicative function term. -/
def oneOfEach : PolyConstraintsSet where
  polyAdd := [⟨[0], [2]⟩]
  polyMul := []
  funcAdd := []
  funcMul := [⟨[1], [3], some fun _ => .ok 1⟩]

end TileLangNpuir.Carver
