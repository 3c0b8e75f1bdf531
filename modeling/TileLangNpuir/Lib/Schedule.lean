import TileLangNpuir.Lib.CountedLoop
import Mathlib.Data.Set.Image
import Mathlib.Logic.Equiv.Defs
import Mathlib.Order.Defs.LinearOrder

/-!
# Schedules

Two orders of the same instances of statements compute the same when every instance reads,
in both orders, what the same instance wrote. In the second order an instance may keep the
cells in places of its own (`relocate`).

Nothing is said about what an instance computes, only which cells it reads and writes.
-/

namespace TileLangNpuir

variable {ι X V : Type}

/-- `f` changes cells of `W` only, and what it puts there depends on the cells of `F` only. -/
structure Acts (F W : Set X) (f : (X → V) → X → V) : Prop where
  frame : ∀ m x, x ∉ W → f m x = m x
  reads : ∀ m m', (∀ x ∈ F, m x = m' x) → ∀ x ∈ W, f m x = f m' x

/-- `f`, with the cell `x` kept at `e x`. -/
def relocate (e : Equiv.Perm X) (f : (X → V) → X → V) (m : X → V) : X → V :=
  fun y => f (fun x => m (e x)) (e.symm y)

theorem relocate_apply (e : Equiv.Perm X) (f : (X → V) → X → V) (m : X → V) (x : X) :
    relocate e f m (e x) = f (fun x => m (e x)) x := by
  rw [relocate, Equiv.symm_apply_apply]

/-- The instances of a list one after the other. -/
def runAllOf (f : ι → (X → V) → X → V) (l : List ι) (m : X → V) : X → V :=
  l.foldl (fun m j => f j m) m

section

variable (f : ι → (X → V) → X → V)

@[simp]
theorem runAllOf_nil (m : X → V) : runAllOf f [] m = m := rfl

@[simp]
theorem runAllOf_cons (j : ι) (l : List ι) (m : X → V) :
    runAllOf f (j :: l) m = runAllOf f l (f j m) := rfl

@[simp]
theorem runAllOf_append (l l' : List ι) (m : X → V) :
    runAllOf f (l ++ l') m = runAllOf f l' (runAllOf f l m) := List.foldl_append ..

end

/-! ## Counters -/

/-- The values of a counter that starts at `lo` and takes `n` steps. -/
def span (lo : ℤ) (n : ℕ) : List ℤ := (List.range n).map fun k : ℕ => lo + k

theorem mem_span {lo t : ℤ} {n : ℕ} : t ∈ span lo n ↔ lo ≤ t ∧ t < lo + n := by
  simp only [span, List.mem_map, List.mem_range]
  refine ⟨fun ⟨k, hk, hkt⟩ => by omega, fun h => ⟨(t - lo).toNat, by omega, by omega⟩⟩

theorem span_succ (lo : ℤ) (n : ℕ) : span lo (n + 1) = lo :: span (lo + 1) n := by
  rw [span, span, List.range_succ_eq_map, List.map_cons, List.map_map]
  congr 1
  · omega
  · refine List.map_congr_left fun k _ => ?_
    simp only [Function.comp_apply]
    omega

theorem pairwise_span (lo : ℤ) (n : ℕ) : (span lo n).Pairwise (· < ·) := by
  refine List.Pairwise.map _ (fun a b h => ?_) List.pairwise_lt_range
  omega

theorem map_add_span (lo d : ℤ) (n : ℕ) : ((span lo n).map fun t => t + d) = span (lo + d) n := by
  rw [span, span, List.map_map]
  refine List.map_congr_left fun k _ => ?_
  simp only [Function.comp_apply]
  omega

/-- A counted loop whose rounds run lists of instances runs all of them. -/
theorem countLoop_runAllOf {f : ι → (X → V) → X → V} {step : ℤ → (X → V) → X → V}
    {round : ℤ → List ι} (n : ℕ) (lo : ℤ) (m : X → V)
    (h : ∀ t, lo ≤ t → t < lo + n → ∀ m, step t m = runAllOf f (round t) m) :
    countLoop step n lo m = runAllOf f ((span lo n).flatMap round) m := by
  induction n generalizing lo m with
  | zero => rfl
  | succ n ih =>
    rw [countLoop, span_succ, List.flatMap_cons, runAllOf_append, h lo le_rfl (by omega),
      ih (lo + 1) _ fun t h₁ h₂ => h t (by omega) (by omega)]

/-! ## The last write -/

/-- `k` is the last instance of the list that writes `x`. -/
def LastWrite (W : ι → Set X) (l : List ι) (x : X) (k : ι) : Prop :=
  ∃ a b, l = a ++ k :: b ∧ x ∈ W k ∧ ∀ j ∈ b, x ∉ W j

section

variable {f : ι → (X → V) → X → V} {W : ι → Set X} {l : List ι}

theorem runAllOf_of_notMem {x : X} (hframe : ∀ j ∈ l, ∀ m, x ∉ W j → f j m x = m x)
    (h : ∀ j ∈ l, x ∉ W j) (m : X → V) : runAllOf f l m x = m x := by
  induction l generalizing m with
  | nil => rfl
  | cons j l ih =>
    rw [runAllOf_cons, ih (fun k hk => hframe k (List.mem_cons_of_mem j hk))
      (fun k hk => h k (List.mem_cons_of_mem j hk))]
    exact hframe j List.mem_cons_self m (h j List.mem_cons_self)

/-- Of the instances with `S` that a list has, one comes last. -/
theorem exists_last_of_exists {S : ι → Prop} (h : ∃ k ∈ l, S k) :
    ∃ a k b, l = a ++ k :: b ∧ S k ∧ ∀ j ∈ b, ¬ S j := by
  induction l with
  | nil =>
    obtain ⟨k, hk, -⟩ := h
    exact absurd hk List.not_mem_nil
  | cons j l ih =>
    by_cases hl : ∃ k ∈ l, S k
    · obtain ⟨a, k, b, rfl, hk, hb⟩ := ih hl
      exact ⟨j :: a, k, b, rfl, hk, hb⟩
    · obtain ⟨k, hk, hS⟩ := h
      rcases List.mem_cons.mp hk with rfl | hk
      · exact ⟨[], k, l, rfl, hS, fun i hi hSi => hl ⟨i, hi, hSi⟩⟩
      · exact absurd ⟨k, hk, hS⟩ hl

end

/-! ## Schedules with the same writes -/

/-- After `a`, and after `a'` with relocated cells, `x` and `y` hold what the same instance wrote,
or nothing was written and they agree from the start. -/
def SameWrite (W : ι → Set X) (e : ι → Equiv.Perm X) (m m' : X → V) (a a' : List ι) (x y : X) :
    Prop :=
  (∃ k, LastWrite W a x k ∧ LastWrite (fun k => e k '' W k) a' y k ∧ e k x = y) ∨
    ((∀ k ∈ a, x ∉ W k) ∧ (∀ k ∈ a', y ∉ e k '' W k) ∧ m x = m' y)

section

variable {f : ι → (X → V) → X → V} {F W : ι → Set X} {e : ι → Equiv.Perm X} {l l' : List ι}
  {m m' : X → V}

theorem Acts.relocate_frame {j : ι} (h : Acts (F j) (W j) (f j)) (m : X → V) {y : X}
    (hy : y ∉ e j '' W j) : relocate (e j) (f j) m y = m y := by
  have hx : (e j).symm y ∉ W j := fun hw => hy ⟨(e j).symm y, hw, (e j).apply_symm_apply y⟩
  rw [relocate, h.frame _ _ hx, Equiv.apply_symm_apply]

/-- Every read finds the same write. -/
def ReadsAgree (F W : ι → Set X) (e : ι → Equiv.Perm X) (l l' : List ι) (m m' : X → V) : Prop :=
  ∀ j a b a' b', l = a ++ j :: b → l' = a' ++ j :: b' → ∀ x ∈ F j,
    SameWrite W e m m' a a' x (e j x)

/-- If every read finds the same write, every instance writes the same. -/
theorem written_eq (hacts : ∀ j ∈ l, Acts (F j) (W j) (f j)) (hsub : ∀ j ∈ l', j ∈ l)
    (hreads : ReadsAgree F W e l l' m m') :
    ∀ (n : ℕ) (j : ι) (a b a' b' : List ι), a'.length = n → l = a ++ j :: b → l' = a' ++ j :: b' →
      ∀ x ∈ W j, runAllOf (fun k => relocate (e k) (f k)) (a' ++ [j]) m' (e j x) =
        runAllOf f (a ++ [j]) m x := by
  intro n
  -- on the instances that come earlier in the second order
  induction n using Nat.strong_induction_on with
  | _ n ih =>
    intro j a b a' b' hn hl hl' x hx
    have ha : ∀ k ∈ a, k ∈ l := fun k hk => hl ▸ List.mem_append_left _ hk
    have ha' : ∀ k ∈ a', k ∈ l := fun k hk => hsub k (hl' ▸ List.mem_append_left _ hk)
    have hj : j ∈ l := hl ▸ List.mem_append_right a List.mem_cons_self
    simp only [runAllOf_append, runAllOf_cons, runAllOf_nil, relocate_apply]
    refine (hacts j hj).reads _ _ (fun z hz => ?_) x hx
    rcases hreads j a b a' b' hl hl' z hz with ⟨k, hk, hk', hplace⟩ | ⟨hno, hno', hstart⟩
    · obtain ⟨a₁, b₁, rfl, hzk, hb₁⟩ := hk
      obtain ⟨a₂, b₂, rfl, -, hb₂⟩ := hk'
      have hleft : runAllOf f (a₁ ++ k :: b₁) m z = runAllOf f (a₁ ++ [k]) m z := by
        rw [List.append_cons, runAllOf_append]
        refine runAllOf_of_notMem (fun i hi m => (hacts i ?_).frame m z) hb₁ _
        exact ha i (List.mem_append_right a₁ (List.mem_cons_of_mem k hi))
      have hright : runAllOf (fun k => relocate (e k) (f k)) (a₂ ++ k :: b₂) m' (e j z) =
          runAllOf (fun k => relocate (e k) (f k)) (a₂ ++ [k]) m' (e j z) := by
        rw [List.append_cons, runAllOf_append]
        refine runAllOf_of_notMem (fun i hi m => (hacts i ?_).relocate_frame m) hb₂ _
        exact ha' i (List.mem_append_right a₂ (List.mem_cons_of_mem k hi))
      rw [hleft, hright, ← hplace]
      refine ih a₂.length ?_ k a₁ (b₁ ++ j :: b) a₂ (b₂ ++ j :: b') rfl ?_ ?_ z hzk
      · rw [← hn, List.length_append, List.length_cons]
        omega
      · rw [hl, List.append_assoc, List.cons_append]
      · rw [hl', List.append_assoc, List.cons_append]
    · rw [runAllOf_of_notMem (fun i hi m => (hacts i (ha i hi)).frame m z) hno,
        runAllOf_of_notMem (fun i hi m => (hacts i (ha' i hi)).relocate_frame m) hno', hstart]

/-- If every read finds the same write, cells that hold the same write in the end are equal. -/
theorem runAllOf_relocate_eq (hacts : ∀ j ∈ l, Acts (F j) (W j) (f j)) (hsub : ∀ j ∈ l', j ∈ l)
    (hreads : ReadsAgree F W e l l' m m') {x y : X} (hend : SameWrite W e m m' l l' x y) :
    runAllOf (fun k => relocate (e k) (f k)) l' m' y = runAllOf f l m x := by
  rcases hend with ⟨k, ⟨a, b, hl, hx, hb⟩, ⟨a', b', hl', -, hb'⟩, hplace⟩ | ⟨hno, hno', hstart⟩
  · have hwritten := written_eq hacts hsub hreads a'.length k a b a' b' rfl hl hl' x hx
    have hmem : ∀ i ∈ b, i ∈ l := fun i hi =>
      hl ▸ List.mem_append_right a (List.mem_cons_of_mem k hi)
    have hmem' : ∀ i ∈ b', i ∈ l := fun i hi =>
      hsub i (hl' ▸ List.mem_append_right a' (List.mem_cons_of_mem k hi))
    have hleft : runAllOf f l m x = runAllOf f (a ++ [k]) m x := by
      rw [hl, List.append_cons, runAllOf_append]
      exact runAllOf_of_notMem (fun i hi m => (hacts i (hmem i hi)).frame m x) hb _
    have hright : runAllOf (fun k => relocate (e k) (f k)) l' m' y =
        runAllOf (fun k => relocate (e k) (f k)) (a' ++ [k]) m' y := by
      rw [hl', List.append_cons, runAllOf_append]
      exact runAllOf_of_notMem (fun i hi m => (hacts i (hmem' i hi)).relocate_frame m) hb' _
    rw [hleft, hright, ← hplace, hwritten]
  · rw [runAllOf_of_notMem (fun i hi m => (hacts i hi).frame m x) hno,
      runAllOf_of_notMem (fun i hi m => (hacts i (hsub i hi)).relocate_frame m) hno', hstart]

end

/-! ## Sorted schedules -/

section

variable {W : ι → Set X} {e : ι → Equiv.Perm X} {r r' : ι → ι → Prop} {a a' : List ι}

/-- In lists sorted by `r` and by `r'`: the instances with `S` write the cell in question, in the
same order, and every other write to it is followed by one of theirs. -/
theorem sameWrite_of_sorted {m m' : X → V} {x y : X} {S : ι → Prop} (ha : a.Pairwise r)
    (ha' : a'.Pairwise r') (hasymm : ∀ j k, r j k → ¬ r k j) (hasymm' : ∀ j k, r' j k → ¬ r' k j)
    (hS : ∀ k, S k → x ∈ W k ∧ e k x = y) (hmem : ∀ k, S k → (k ∈ a ↔ k ∈ a'))
    (horder : ∀ j k, S j → S k → r j k → r' j k)
    (hother : ∀ k ∈ a, x ∈ W k → ¬ S k → ∃ k' ∈ a, S k' ∧ r k k')
    (hother' : ∀ k ∈ a', y ∈ e k '' W k → ¬ S k → ∃ k' ∈ a', S k' ∧ r' k k')
    (hstart : (∀ k ∈ a, ¬ S k) → m x = m' y) : SameWrite W e m m' a a' x y := by
  by_cases hex : ∃ k ∈ a, S k
  · left
    obtain ⟨b, k, c, rfl, hk, hc⟩ := exists_last_of_exists hex
    have hlast : ∀ j ∈ b ++ k :: c, S j → j = k ∨ r j k := by
      intro j hj hSj
      rcases List.mem_append.mp hj with hj | hj
      · exact .inr ((List.pairwise_append.mp ha).2.2 j hj k List.mem_cons_self)
      · rcases List.mem_cons.mp hj with rfl | hj
        · exact .inl rfl
        · exact absurd hSj (hc j hj)
    have hkmem : k ∈ a' := (hmem k hk).mp (List.mem_append_right b List.mem_cons_self)
    obtain ⟨b', c', rfl⟩ := List.append_of_mem hkmem
    have hlast' : ∀ j ∈ b' ++ k :: c', S j → j = k ∨ r' j k := by
      intro j hj hSj
      rcases hlast j ((hmem j hSj).mpr hj) hSj with rfl | hr
      · exact .inl rfl
      · exact .inr (horder j k hSj hk hr)
    refine ⟨k, ⟨b, c, rfl, (hS k hk).1, fun j hj hx => ?_⟩,
      ⟨b', c', rfl, ⟨x, (hS k hk).1, (hS k hk).2⟩, fun j hj hy => ?_⟩, (hS k hk).2⟩
    · -- a write after `k` would be followed by one with `S`, after `k` as well
      have hkj : r k j := (List.pairwise_cons.mp (List.pairwise_append.mp ha).2.1).1 j hj
      have hjmem : j ∈ b ++ k :: c := List.mem_append_right b (List.mem_cons_of_mem k hj)
      obtain ⟨i, hi, hSi, hji⟩ := hother j hjmem hx (hc j hj)
      have hic : i ∈ c := by
        rcases hlast i hi hSi with rfl | hik
        · exact absurd hji (hasymm _ _ hkj)
        · by_contra hnot
          rcases List.mem_append.mp hi with hib | hic
          · have := (List.pairwise_append.mp ha).2.2 i hib j (List.mem_cons_of_mem k hj)
            exact hasymm _ _ this hji
          · rcases List.mem_cons.mp hic with rfl | hic
            · exact hasymm _ _ hik hik
            · exact hnot hic
      exact hc i hic hSi
    · have hkj : r' k j := (List.pairwise_cons.mp (List.pairwise_append.mp ha').2.1).1 j hj
      have hjmem : j ∈ b' ++ k :: c' := List.mem_append_right b' (List.mem_cons_of_mem k hj)
      by_cases hSj : S j
      · rcases hlast' j hjmem hSj with rfl | hjk
        · exact hasymm' _ _ hkj hkj
        · exact hasymm' _ _ hkj hjk
      · obtain ⟨i, hi, hSi, hji⟩ := hother' j hjmem hy hSj
        rcases hlast' i hi hSi with rfl | hik
        · exact hasymm' _ _ hkj hji
        · -- `k`, `j`, `i` in this order, and `i` before `k`
          rcases List.mem_append.mp hi with hib | hic
          · have := (List.pairwise_append.mp ha').2.2 i hib j (List.mem_cons_of_mem k hj)
            exact hasymm' _ _ this hji
          · rcases List.mem_cons.mp hic with rfl | hic
            · exact hasymm' _ _ hik hik
            · have := (List.pairwise_cons.mp (List.pairwise_append.mp ha').2.1).1 i hic
              exact hasymm' _ _ this hik
  · right
    have hnone : ∀ k ∈ a, ¬ S k := fun k hk hSk => hex ⟨k, hk, hSk⟩
    refine ⟨fun k hk hx => ?_, fun k hk hy => ?_, hstart hnone⟩
    · obtain ⟨i, hi, hSi, -⟩ := hother k hk hx (hnone k hk)
      exact hnone i hi hSi
    · by_cases hSk : S k
      · exact hnone k ((hmem k hSk).mpr hk) hSk
      · obtain ⟨i, hi, hSi, -⟩ := hother' k hk hy hSk
        exact hnone i ((hmem i hSi).mpr hi) hSi

/-- In a sorted list, what stands before an instance is what is less. -/
theorem mem_prefix_iff {l b : List ι} {j k : ι} (hl : l.Pairwise r) (hasymm : ∀ j k, r j k → ¬ r k j)
    (h : l = a ++ j :: b) : k ∈ a ↔ k ∈ l ∧ r k j := by
  subst h
  refine ⟨fun hk => ⟨List.mem_append_left _ hk,
    (List.pairwise_append.mp hl).2.2 k hk j List.mem_cons_self⟩, fun ⟨hk, hkj⟩ => ?_⟩
  rcases List.mem_append.mp hk with hk | hk
  · exact hk
  · rcases List.mem_cons.mp hk with rfl | hk
    · exact absurd hkj (hasymm _ _ hkj)
    · have := (List.pairwise_cons.mp (List.pairwise_append.mp hl).2.1).1 k hk
      exact absurd hkj (hasymm _ _ this)

end

end TileLangNpuir
