import Mathlib.Logic.Function.Basic
import Mathlib.Data.List.Induction

/-!
# Values in shared places

A program of instances that read and write cells, run on a memory in which every cell has a place.
Cells may share a place as long as no value is overwritten between its write and its last read:
then every instance reads what it reads from a memory with a place for every cell.
-/

namespace TileLangNpuir

/-- What the instances read and write, and the values they write: these depend on the values read
only. -/
structure Instances (ι C V : Type) : Type where
  reads : ι → List C
  writes : ι → List C
  value : ι → List V → C → V

namespace Instances

variable {ι C V A B : Type} (P : Instances ι C V)

/-! ## Cells that share a place -/

section

variable (place : C → A)

/-- No other cell that the instance writes has the place of `x`. -/
def Spares (x : C) (j : ι) : Prop := ∀ y ∈ P.writes j, y ≠ x → place y ≠ place x

/-- The cell was written, and nothing was written to its place since. -/
def Intact (l : List ι) (x : C) : Prop :=
  ∃ a k b, l = a ++ k :: b ∧ x ∈ P.writes k ∧ ∀ j ∈ k :: b, P.Spares place x j

variable {P place} {x : C} {j : ι}

theorem spares_of_injective (hinj : Function.Injective place) (x : C) (j : ι) :
    P.Spares place x j := fun _ _ hne heq => hne (hinj heq)

/-- An instance leaves intact what it spares, and what it writes and spares. -/
theorem intact_concat {l : List ι} : P.Intact place (l ++ [j]) x ↔
    P.Spares place x j ∧ (x ∈ P.writes j ∨ P.Intact place l x) := by
  refine ⟨fun ⟨a, k, b, hl, hx, hspares⟩ => ?_, fun ⟨hspares, h⟩ => ?_⟩
  · rcases List.eq_nil_or_concat b with rfl | ⟨b, i, rfl⟩
    · obtain ⟨rfl, hjk⟩ := List.append_inj' hl rfl
      obtain rfl := (List.cons.inj hjk).1
      exact ⟨hspares j List.mem_cons_self, .inl hx⟩
    · rw [List.concat_eq_append] at hl hspares
      rw [← List.cons_append, ← List.append_assoc] at hl
      obtain ⟨rfl, hji⟩ := List.append_inj' hl rfl
      obtain rfl := (List.cons.inj hji).1
      refine ⟨hspares j (by simp), .inr ⟨a, k, b, rfl, hx, fun i hi => hspares i ?_⟩⟩
      rw [← List.cons_append]
      exact List.mem_append_left _ hi
  · rcases h with hx | ⟨a, k, b, rfl, hx, hall⟩
    · refine ⟨l, j, [], rfl, hx, fun i hi => ?_⟩
      rw [List.mem_singleton.mp hi]
      exact hspares
    · refine ⟨a, k, b ++ [j], by simp, hx, fun i hi => ?_⟩
      rw [← List.cons_append, List.mem_append, List.mem_singleton] at hi
      rcases hi with hi | rfl
      · exact hall i hi
      · exact hspares

end

/-! ## Runs -/

variable [DecidableEq A] [DecidableEq B]

section

variable (place : C → A)

/-- What an instance reads. -/
def load (m : A → V) (j : ι) : List V := (P.reads j).map fun c => m (place c)

/-- An instance reads everything before it writes. -/
def step (m : A → V) (j : ι) : A → V :=
  (P.writes j).foldl (fun m' c => Function.update m' (place c) (P.value j (P.load place m j) c)) m

def run (m : A → V) (l : List ι) : A → V := l.foldl (P.step place) m

/-- What the instances of a run read. -/
def loads : (A → V) → List ι → List (List V)
  | _, [] => []
  | m, j :: l => P.load place m j :: loads (P.step place m j) l

end

variable {P}

section

variable {place : C → A} {x : C} {j : ι}

theorem run_concat (m : A → V) (l : List ι) (j : ι) :
    P.run place m (l ++ [j]) = P.step place (P.run place m l) j := by
  rw [run, run, List.foldl_append]
  rfl

/-- What is at the place of a spared cell after an instance. -/
theorem step_apply [DecidableEq C] (h : P.Spares place x j) (m : A → V) :
    P.step place m j (place x) =
      if x ∈ P.writes j then P.value j (P.load place m j) x else m (place x) := by
  have hfold : ∀ (cs : List C) (m' : A → V), (∀ y ∈ cs, y ≠ x → place y ≠ place x) →
      cs.foldl (fun m' c => Function.update m' (place c) (P.value j (P.load place m j) c)) m'
          (place x) =
        if x ∈ cs then P.value j (P.load place m j) x else m' (place x) := by
    intro cs
    induction cs with
    | nil => exact fun m' _ => rfl
    | cons c cs ih =>
      intro m' hcs
      rw [List.foldl_cons, ih _ fun y hy => hcs y (List.mem_cons_of_mem c hy)]
      by_cases hmem : x ∈ cs
      · rw [if_pos hmem, if_pos (List.mem_cons_of_mem c hmem)]
      · rw [if_neg hmem]
        by_cases hc : c = x
        · rw [hc, Function.update_self, if_pos List.mem_cons_self]
        · have hnot : x ∉ c :: cs := by
            rw [List.mem_cons]
            rintro (hx | hx)
            · exact hc hx.symm
            · exact hmem hx
          rw [if_neg hnot, Function.update_of_ne (hcs c List.mem_cons_self hc).symm]
  exact hfold (P.writes j) m h

end

/-- Two memories, the first with a place for every cell, hold the same in intact cells. -/
theorem run_eq_of_intact [DecidableEq C] {place : C → A} {place' : C → B} (m : A → V) (m' : B → V)
    (hinj : Function.Injective place) {l : List ι}
    (hreads : ∀ a j b, l = a ++ j :: b → ∀ x ∈ P.reads j, P.Intact place' a x) :
    ∀ x, P.Intact place' l x → P.run place m l (place x) = P.run place' m' l (place' x) := by
  induction l using List.reverseRecOn with
  | nil =>
    rintro x ⟨a, k, b, hl, -⟩
    exact absurd hl.symm (by simp)
  | append_singleton l j ih =>
    intro x hx
    have ih := ih fun a i b hl y hy => hreads a i (b ++ [j]) (by rw [hl]; simp) y hy
    obtain ⟨hspares, hx⟩ := intact_concat.mp hx
    -- the instance reads intact cells only
    have hload : P.load place (P.run place m l) j = P.load place' (P.run place' m' l) j :=
      List.map_congr_left fun y hy => ih y (hreads l j [] rfl y hy)
    rw [run_concat, run_concat, step_apply (spares_of_injective hinj x j), step_apply hspares,
      hload]
    by_cases hw : x ∈ P.writes j
    · rw [if_pos hw, if_pos hw]
    · rw [if_neg hw, if_neg hw]
      exact ih x (hx.resolve_left hw)

/-- If every instance reads intact cells, it reads the same in both memories. -/
theorem loads_eq_of_intact [DecidableEq C] {place : C → A} {place' : C → B} {m : A → V}
    {m' : B → V} (hinj : Function.Injective place) {l : List ι}
    (hreads : ∀ a j b, l = a ++ j :: b → ∀ x ∈ P.reads j, P.Intact place' a x) :
    P.loads place m l = P.loads place' m' l := by
  have hrest : ∀ rest a, l = a ++ rest →
      P.loads place (P.run place m a) rest = P.loads place' (P.run place' m' a) rest := by
    intro rest
    induction rest with
    | nil => exact fun a _ => rfl
    | cons j rest ih =>
      intro a hl
      have hagree := run_eq_of_intact m m' hinj (l := a) fun b i c ha y hy =>
        hreads b i (c ++ j :: rest) (by rw [hl, ha, List.append_assoc, List.cons_append]) y hy
      have hload : P.load place (P.run place m a) j = P.load place' (P.run place' m' a) j :=
        List.map_congr_left fun y hy => hagree y (hreads a j rest hl y hy)
      rw [loads, loads, hload, ← run_concat, ← run_concat,
        ih (a ++ [j]) (by rw [hl, List.append_assoc]; rfl)]
  exact hrest l [] rfl

end Instances

end TileLangNpuir
