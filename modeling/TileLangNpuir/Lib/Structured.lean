import Mathlib.Data.List.Basic

/-!
# Structured programs

Programs built from leaves by sequences, branches, loops and blocks, and the paths through them:
which branch is taken and how often a loop runs is left open. `SetSince` looks back along a path.
-/

namespace TileLangNpuir

universe u

/-- A structured program over the leaves `α`. -/
inductive Prog (α : Type u) : Type u where
  | skip
  | leaf (a : α)
  | seq (p q : Prog α)
  | ite (p q : Prog α)
  | loop (p : Prog α)
  | block (p : Prog α)

variable {α : Type u}

namespace Prog

/-- The leaves, in the order of the text. -/
def leaves : Prog α → List α
  | .skip => []
  | .leaf a => [a]
  | .seq p q => p.leaves ++ q.leaves
  | .ite p q => p.leaves ++ q.leaves
  | .loop p => p.leaves
  | .block p => p.leaves

/-- The leaves that one run of the program goes through. -/
inductive Path : Prog α → List α → Prop
  | skip : Path .skip []
  | leaf (a : α) : Path (.leaf a) [a]
  | seq {p q : Prog α} {l k : List α} : Path p l → Path q k → Path (.seq p q) (l ++ k)
  | thenCase {p q : Prog α} {l : List α} : Path p l → Path (.ite p q) l
  | elseCase {p q : Prog α} {l : List α} : Path q l → Path (.ite p q) l
  | exit {p : Prog α} : Path (.loop p) []
  | again {p : Prog α} {l k : List α} : Path p l → Path (.loop p) k → Path (.loop p) (l ++ k)
  | block {p : Prog α} {l : List α} : Path p l → Path (.block p) l

theorem Path.mem_leaves {p : Prog α} {l : List α} (h : Path p l) : ∀ a ∈ l, a ∈ p.leaves := by
  induction h with
  | skip =>
    intro a ha
    exact ha
  | leaf b =>
    intro a ha
    exact ha
  | seq _ _ ihp ihq =>
    intro a ha
    rcases List.mem_append.mp ha with ha | ha
    · exact List.mem_append_left _ (ihp a ha)
    · exact List.mem_append_right _ (ihq a ha)
  | thenCase _ ih =>
    intro a ha
    exact List.mem_append_left _ (ih a ha)
  | elseCase _ ih =>
    intro a ha
    exact List.mem_append_right _ (ih a ha)
  | exit =>
    intro a ha
    cases ha
  | again _ _ ihp ihk =>
    intro a ha
    rcases List.mem_append.mp ha with ha | ha
    · exact ihp a ha
    · exact ihk a ha
  | block _ ih => exact ih

end Prog

/-- Something was set on the way and not reset since. -/
def SetSince (set reset : α → Prop) (past : List α) : Prop :=
  ∃ pre a post, past = pre ++ a :: post ∧ set a ∧ ∀ x ∈ post, ¬reset x

section

variable {set reset : α → Prop} {past : List α}

theorem not_setSince_nil : ¬SetSince set reset [] := by
  rintro ⟨pre, a, post, hsplit, -, -⟩
  cases pre <;> cases hsplit

theorem setSince_concat (a : α) :
    SetSince set reset (past ++ [a]) ↔ set a ∨ SetSince set reset past ∧ ¬reset a := by
  refine ⟨?_, ?_⟩
  · rintro ⟨pre, b, post, hsplit, hset, hpost⟩
    rcases post.eq_nil_or_concat with rfl | ⟨post, c, rfl⟩
    · left
      obtain ⟨-, hab⟩ := List.append_inj' hsplit rfl
      rwa [List.singleton_inj.mp hab]
    · right
      have hsplit : past ++ [a] = (pre ++ b :: post) ++ [c] := by
        rw [hsplit]
        simp
      obtain ⟨hpast, hac⟩ := List.append_inj' hsplit rfl
      obtain rfl := List.singleton_inj.mp hac
      exact ⟨⟨pre, b, post, hpast, hset, fun x hx => hpost x (by simp [hx])⟩, hpost a (by simp)⟩
  · rintro (hset | ⟨⟨pre, b, post, rfl, hset, hpost⟩, hreset⟩)
    · exact ⟨past, a, [], rfl, hset, fun x hx => by cases hx⟩
    · refine ⟨pre, b, post ++ [a], by simp, hset, fun x hx => ?_⟩
      rcases List.mem_append.mp hx with hx | hx
      · exact hpost x hx
      · rwa [List.mem_singleton.mp hx]

end

end TileLangNpuir
