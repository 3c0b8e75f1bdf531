import TileLangNpuir.Lib.CountedLoop
import Mathlib.Data.Set.Disjoint
import Mathlib.Data.Set.Lattice
import Mathlib.Order.CompletePartialOrder

/-!
# Footprints

State transformers that touch only part of the state. A state is seen through
`get`, which reads its cells and determines it. `LocalTo get F W f` says that `f`
changes cells of `W` only, and that the new values depend on the cells of `F`.

Iterations whose footprints are apart commute: a loop over a composition splits
into one loop for each part (`countLoop_fission`), and every iteration sees the
initial state (`get_countLoop`).
-/

namespace TileLangNpuir

variable {M X V : Type} {get : M → X → V}

/-- `f` writes `W` only, and what it writes depends on `F` only. -/
structure LocalTo (get : M → X → V) (F W : Set X) (f : M → M) : Prop where
  sub : W ⊆ F
  frame : ∀ m x, x ∉ W → get (f m) x = get m x
  reads : ∀ m m', (∀ x ∈ F, get m x = get m' x) → ∀ x ∈ W, get (f m) x = get (f m') x

/-- What one transformer writes the other does not touch, both ways. -/
def Apart (F W F' W' : Set X) : Prop := Disjoint W F' ∧ Disjoint W' F

section

variable {F F' W W' : Set X} {f g : M → M}

theorem LocalTo.agree (h : LocalTo get F W f) {m m' : M} (hm : ∀ x ∈ F, get m x = get m' x) :
    ∀ x ∈ F, get (f m) x = get (f m') x := by
  intro x hx
  by_cases hw : x ∈ W
  · exact h.reads m m' hm x hw
  · rw [h.frame m x hw, h.frame m' x hw, hm x hx]

theorem LocalTo.id (hsub : W ⊆ F) : LocalTo get F W id :=
  ⟨hsub, fun _ _ _ => rfl, fun _ _ hm x hx => hm x (hsub hx)⟩

theorem LocalTo.congr (hf : LocalTo get F W f) (h : ∀ m, g m = f m) : LocalTo get F W g := by
  obtain rfl : g = f := funext h
  exact hf

theorem LocalTo.comp (hf : LocalTo get F W f) (hg : LocalTo get F W g) :
    LocalTo get F W (g ∘ f) := by
  refine ⟨hf.sub, fun m x hx => ?_, fun m m' hm x hx => ?_⟩
  · exact (hg.frame (f m) x hx).trans (hf.frame m x hx)
  · exact hg.reads (f m) (f m') (hf.agree hm) x hx

theorem LocalTo.mono (hf : LocalTo get F W f) (hF : F ⊆ F') (hW : W ⊆ W') (hsub : W' ⊆ F') :
    LocalTo get F' W' f := by
  refine ⟨hsub, fun m x hx => hf.frame m x fun hw => hx (hW hw), fun m m' hm x hx => ?_⟩
  by_cases hw : x ∈ W
  · exact hf.reads m m' (fun y hy => hm y (hF hy)) x hw
  · rw [hf.frame m x hw, hf.frame m' x hw, hm x (hsub hx)]

/-- Transformers with footprints apart commute. -/
theorem LocalTo.commute (hext : ∀ m m', (∀ x, get m x = get m' x) → m = m')
    (hf : LocalTo get F W f) (hg : LocalTo get F' W' g) (hapart : Apart F W F' W') (m : M) :
    f (g m) = g (f m) := by
  refine hext _ _ fun x => ?_
  by_cases hx : x ∈ W
  · have hx' : x ∉ W' := fun h => Set.disjoint_left.mp hapart.2 h (hf.sub hx)
    rw [hg.frame (f m) x hx']
    refine hf.reads (g m) m (fun y hy => hg.frame m y fun h => ?_) x hx
    exact Set.disjoint_left.mp hapart.2 h hy
  · rw [hf.frame (g m) x hx]
    by_cases hx' : x ∈ W'
    · refine (hg.reads (f m) m (fun y hy => hf.frame m y fun h => ?_) x hx').symm
      exact Set.disjoint_left.mp hapart.1 h hy
    · rw [hg.frame m x hx', hg.frame (f m) x hx', hf.frame m x hx]

end

/-- Footprints of the iterations `i` to `i + n` of a loop, pairwise apart. -/
structure IterationsApart (n : ℕ) (i : ℤ) (F W : ℤ → Set X) : Prop where
  apart : ∀ j k, i ≤ j → j < i + n → i ≤ k → k < i + n → j ≠ k → Disjoint (W j) (F k)

section Loop

variable {n : ℕ} {i : ℤ} {F W : ℤ → Set X} {f g : ℤ → M → M}

theorem IterationsApart.tail (h : IterationsApart (n + 1) i F W) : IterationsApart n (i + 1) F W :=
  ⟨fun j k hj hj' hk hk' => h.apart j k (by omega) (by push_cast; omega) (by omega)
    (by push_cast; omega)⟩

/-- The first iteration is apart from the later ones. -/
theorem IterationsApart.head (h : IterationsApart (n + 1) i F W) {j : ℤ} (hj : i + 1 ≤ j)
    (hj' : j < i + 1 + n) : Apart (F i) (W i) (F j) (W j) :=
  ⟨h.apart i j (le_refl i) (by push_cast; omega) (by omega) (by push_cast; omega) (by omega),
    h.apart j i (by omega) (by push_cast; omega) (le_refl i) (by push_cast; omega) (by omega)⟩

/-- A loop is local to what contains all its iterations. -/
theorem countLoop_localTo {F W : Set X} (hsub : W ⊆ F)
    (hf : ∀ j, i ≤ j → j < i + n → LocalTo get F W (f j)) :
    LocalTo get F W (countLoop f n i) := by
  induction n generalizing i with
  | zero => exact LocalTo.id hsub
  | succ n ih =>
    have hhead := hf i (le_refl i) (by push_cast; omega)
    exact hhead.comp (ih fun j hj hj' => hf j (by omega) (by push_cast; omega))

/-- A transformer apart from all the iterations of a loop commutes with the loop. -/
theorem countLoop_commute (hext : ∀ m m', (∀ x, get m x = get m' x) → m = m') {h : M → M}
    {F' W' : Set X} (hh : LocalTo get F' W' h)
    (hf : ∀ j, i ≤ j → j < i + n → LocalTo get (F j) (W j) (f j))
    (hapart : ∀ j, i ≤ j → j < i + n → Apart F' W' (F j) (W j)) (m : M) :
    countLoop f n i (h m) = h (countLoop f n i m) := by
  induction n generalizing i m with
  | zero => rfl
  | succ n ih =>
    have hswap : f i (h m) = h (f i m) :=
      (hh.commute hext (hf i (le_refl i) (by push_cast; omega))
        (hapart i (le_refl i) (by push_cast; omega)) m).symm
    rw [countLoop, countLoop, hswap]
    exact ih (fun j hj hj' => hf j (by omega) (by push_cast; omega))
      (fun j hj hj' => hapart j (by omega) (by push_cast; omega)) (f i m)

/-- Loop fission. -/
theorem countLoop_fission (hext : ∀ m m', (∀ x, get m x = get m' x) → m = m')
    (hf : ∀ j, i ≤ j → j < i + n → LocalTo get (F j) (W j) (f j))
    (hg : ∀ j, i ≤ j → j < i + n → LocalTo get (F j) (W j) (g j))
    (hapart : IterationsApart n i F W) (m : M) :
    countLoop (fun j m => g j (f j m)) n i m = countLoop g n i (countLoop f n i m) := by
  induction n generalizing i m with
  | zero => rfl
  | succ n ih =>
    have hcomm := countLoop_commute hext (hg i (le_refl i) (by push_cast; omega))
      (fun j hj hj' => hf j (by omega) (by push_cast; omega))
      (fun j hj hj' => hapart.head hj hj') (f i m)
    simp only [countLoop]
    rw [ih (fun j hj hj' => hf j (by omega) (by push_cast; omega))
      (fun j hj hj' => hg j (by omega) (by push_cast; omega)) hapart.tail, hcomm]

/-- Cells that no iteration writes keep their value. -/
theorem get_countLoop_of_forall_not_mem {x : X}
    (hf : ∀ j, i ≤ j → j < i + n → LocalTo get (F j) (W j) (f j))
    (hx : ∀ j, i ≤ j → j < i + n → x ∉ W j) (m : M) : get (countLoop f n i m) x = get m x := by
  induction n generalizing i m with
  | zero => rfl
  | succ n ih =>
    rw [countLoop, ih (fun j hj hj' => hf j (by omega) (by push_cast; omega))
      (fun j hj hj' => hx j (by omega) (by push_cast; omega))]
    exact (hf i (le_refl i) (by push_cast; omega)).frame m x (hx i (le_refl i) (by push_cast; omega))

/-- Each iteration writes what it would write from the initial state. -/
theorem get_countLoop (hf : ∀ j, i ≤ j → j < i + n → LocalTo get (F j) (W j) (f j))
    (hapart : IterationsApart n i F W) {k : ℤ} (hk : i ≤ k) (hk' : k < i + n) {x : X}
    (hx : x ∈ W k) (m : M) : get (countLoop f n i m) x = get (f k m) x := by
  induction n generalizing i m with
  | zero => exact absurd hk' (by push_cast; omega)
  | succ n ih =>
    have hhead := hf i (le_refl i) (by push_cast; omega)
    have htail : ∀ j, i + 1 ≤ j → j < i + 1 + n → LocalTo get (F j) (W j) (f j) :=
      fun j hj hj' => hf j (by omega) (by push_cast; omega)
    rw [countLoop]
    by_cases hik : k = i
    · subst hik
      refine get_countLoop_of_forall_not_mem htail (fun j hj hj' hxj => ?_) (f k m)
      exact Set.disjoint_left.mp (hapart.head hj hj').1 hx ((htail j hj hj').sub hxj)
    · have hk₁ : i + 1 ≤ k := by omega
      have hk₂ : k < i + 1 + n := by push_cast at hk'; omega
      rw [ih htail hapart.tail hk₁ hk₂]
      refine (htail k hk₁ hk₂).reads (f i m) m (fun y hy => hhead.frame m y fun hyi => ?_) x hx
      exact Set.disjoint_left.mp (hapart.head hk₁ hk₂).1 hyi hy

/-- A loop whose iterations each leave a cell alone or set it to `v`, some iteration
setting it when that is a change. -/
theorem get_countLoop_eq (hf : ∀ j, i ≤ j → j < i + n → LocalTo get (F j) (W j) (f j))
    (hapart : IterationsApart n i F W) {m : M} {x : X} {v : V}
    (hsome : ∀ j, i ≤ j → j < i + n → get (f j m) x = v ∨ get (f j m) x = get m x)
    (hset : v ≠ get m x → ∃ j, i ≤ j ∧ j < i + n ∧ get (f j m) x = v) :
    get (countLoop f n i m) x = v := by
  by_cases hv : v = get m x
  · by_cases hx : ∃ k, i ≤ k ∧ k < i + n ∧ x ∈ W k
    · obtain ⟨k, hk, hk', hxk⟩ := hx
      rw [get_countLoop hf hapart hk hk' hxk]
      rcases hsome k hk hk' with h | h
      · exact h
      · rw [h, hv]
    · rw [get_countLoop_of_forall_not_mem hf (fun j hj hj' hxj => hx ⟨j, hj, hj', hxj⟩), hv]
  · obtain ⟨k, hk, hk', heq⟩ := hset hv
    have hxk : x ∈ W k := by
      by_contra hxk
      exact hv (heq ▸ (hf k hk hk').frame m x hxk)
    rw [get_countLoop hf hapart hk hk' hxk, heq]

end Loop

end TileLangNpuir
