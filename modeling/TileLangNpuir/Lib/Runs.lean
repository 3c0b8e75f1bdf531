import Mathlib.Data.List.Basic

/-!
# Runs of a machine that accepts or rejects commands

A command is accepted, and gives the next state, or is rejected and changes nothing.
`Run step P s cs t` says that some sequence of commands leads from `s` to `t`, that
`cs` are the accepted ones, oldest first, and that each of them met `P` in the state
it was accepted in.
-/

namespace TileLangNpuir

variable {S C E : Type} (step : S → C → Except E S) (P : List C → S → C → Prop)

/-- A run whose accepted commands meet `P`, which may look at the history. -/
inductive Run (s : S) : List C → S → Prop
  | nil : Run s [] s
  | accept {cs : List C} {t u : S} {c : C} :
      Run s cs t → P cs t c → step t c = .ok u → Run s (cs ++ [c]) u
  | reject {cs : List C} {t : S} {c : C} {e : E} :
      Run s cs t → step t c = .error e → Run s cs t

/-- Commands that meet `P` and are accepted, one after another, after a history. -/
def runAll [∀ h s c, Decidable (P h s c)] (h : List C) (s : S) : List C → Option S
  | [] => some s
  | c :: cs =>
    if P h s c then
      match step s c with
      | .ok t => runAll (h ++ [c]) t cs
      | .error _ => none
    else none

/-- Any sequence of commands. -/
abbrev AnyRun (s : S) : List C → S → Prop := Run step (fun _ _ _ => True) s

variable {step P} {s t : S} {cs : List C}

theorem Run.append_runAll [∀ h s c, Decidable (P h s c)] {s₀ : S} {h : List C}
    (hrun : Run step P s₀ h s) (hall : runAll step P h s cs = some t) :
    Run step P s₀ (h ++ cs) t := by
  induction cs generalizing h s with
  | nil =>
    obtain rfl := Option.some.inj hall
    rwa [List.append_nil]
  | cons c cs ih =>
    rw [runAll] at hall
    split at hall
    · rename_i hP
      split at hall
      · rename_i u hok
        have := ih (hrun.accept hP hok) hall
        rwa [List.append_assoc] at this
      · cases hall
    · cases hall

theorem Run.of_runAll [∀ h s c, Decidable (P h s c)] (hall : runAll step P [] s cs = some t) :
    Run step P s cs t := Run.nil.append_runAll hall

/-- What every accepted command keeps holds at the end of a run. -/
theorem Run.invariant {I : List C → S → Prop} (hinit : I [] s)
    (hstep : ∀ cs t c u, I cs t → P cs t c → step t c = .ok u → I (cs ++ [c]) u)
    (h : Run step P s cs t) : I cs t := by
  induction h with
  | nil => exact hinit
  | accept _ hP hok ih => exact hstep _ _ _ _ ih hP hok
  | reject _ _ ih => exact ih

/-- A potential that counted commands lower bounds their number. -/
theorem Run.count_add_le {I : S → Prop} {μ : S → ℕ} {counted : C → Bool} (hinit : I s)
    (hstep : ∀ t c u, I t → step t c = .ok u →
      I u ∧ μ u ≤ μ t ∧ (counted c = true → μ u < μ t))
    (h : Run step P s cs t) : (cs.filter counted).length + μ t ≤ μ s := by
  suffices hall : I t ∧ (cs.filter counted).length + μ t ≤ μ s from hall.2
  refine Run.invariant (I := fun cs t => I t ∧ (cs.filter counted).length + μ t ≤ μ s)
    ⟨hinit, by simp⟩ ?_ h
  rintro cs t c u ⟨hI, hle⟩ - hok
  obtain ⟨hI', hmono, hlt⟩ := hstep t c u hI hok
  refine ⟨hI', ?_⟩
  rw [List.filter_append, List.length_append]
  by_cases hc : counted c = true
  · have := hlt hc
    simp only [List.filter_cons, hc, if_true, List.filter_nil, List.length_singleton]
    omega
  · simp only [List.filter_cons, hc, List.filter_nil]
    simp only [Bool.false_eq_true, if_false, List.length_nil]
    omega

end TileLangNpuir
