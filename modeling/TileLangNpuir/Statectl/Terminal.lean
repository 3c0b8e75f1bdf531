import TileLangNpuir.Statectl.Machine

/-!
# Terminal phases

`DONE` should mean that the plan is finished, and a terminal phase should be left by
`start 4 --extend` only. Two commands break this. The limit of stage 4 ends the run
whatever else is in the plan, and `fail --blocked-code` does not look at the phase.
-/

namespace TileLangNpuir.Statectl

namespace State

variable {s u : State} {c : Cmd}

/-- A finished run has completed its plan, the optional stage 4 apart. -/
def FinishedWhenDone (s : State) : Prop :=
  s.phase = .done → ∀ m ∈ s.stagePlan, m ≠ 4 → s.stageStatus m = some .completed

/-- A terminal phase stays, or the run is opened again for stage 4. -/
def StaysTerminal (s : State) (c : Cmd) (u : State) : Prop :=
  s.phase.isTerminal = true →
    u.phase = s.phase ∧ u.failureReason = s.failureReason ∧ u.stageStatus = s.stageStatus ∨
      c = .start 4 true ∧ s.phase = .done

/-- A code is only given to a running stage, or given once more; and the last failure
of stage 4 comes when no other stage of the plan is left. -/
def endsWell (s : State) : Cmd → Bool
  | .fail _ _ _ (some (some code)) _ =>
    !s.phase.isTerminal || s.phase = .failed && s.failureReason = some code
  | .fail n false _ none _ =>
    n ≠ 4 || !decide (s.exhausts 4) ||
      decide (∀ m ∈ s.stagePlan, m ≠ 4 → s.stageStatus m = some .completed)
  | _ => true

theorem step_finishedWhenDone (hI : s.FinishedWhenDone) (hends : s.endsWell c = true)
    (h : s.step c = .ok u) : u.FinishedWhenDone := by
  intro hdone m hm hne
  have hfresh : ∀ n, stagePhase n ≠ .done := by decide
  cases c with
  | init args => cases h
  | start n extend =>
    obtain ⟨last, -, rfl⟩ := (start_ok h).entered
    exact absurd hdone (hfresh n)
  | complete n gate files =>
    obtain ⟨phase, stage, artifact, ⟨-, hall⟩ | hrunning, rfl⟩ := (complete_ok h).next
    · exact hall m hm
    · have hphase : phase = .done := hdone
      rw [hphase] at hrunning
      cases hrunning
  | fail n r failType code files =>
    obtain ⟨r, code, rfl⟩ | ⟨hrunning, -, rfl⟩ | ⟨failType, files, hrunning, -, -, rfl⟩ := fail_ok h
    · cases hdone
    · rw [reviseDesign_phase] at hdone
      split at hdone
      · cases hdone
      · rw [hdone] at hrunning
        cases hrunning
    · rw [countFailure_phase] at hdone
      rw [countFailure_stagePlan] at hm
      split at hdone
      · rename_i hexhausts
        split at hdone
        · subst n
          rw [countFailure_stageStatus, Function.update_of_ne hne]
          -- the rest of the plan is what the condition asks for
          have hrest : ∀ m ∈ s.stagePlan, m ≠ 4 → s.stageStatus m = some .completed := by
            simpa [endsWell, hexhausts] using hends
          exact hrest m hm hne
        · cases hdone
      · rw [hdone] at hrunning
        cases hrunning
  | set perfTuning finalArtifact =>
    obtain rfl := Except.ok.inj h
    exact hI hdone m hm hne

theorem step_staysTerminal (hends : s.endsWell c = true) (h : s.step c = .ok u) :
    s.StaysTerminal c u := by
  intro hterm
  cases c with
  | init args => cases h
  | start n extend =>
    right
    obtain ⟨rfl, rfl⟩ := (start_ok h).extends_ (.inl hterm)
    exact ⟨rfl, (start_ok h).reopened hterm⟩
  | complete n gate files =>
    rw [(complete_ok h).running] at hterm
    cases hterm
  | fail n r failType code files =>
    obtain ⟨r, code, rfl⟩ | ⟨hrunning, -, rfl⟩ | ⟨failType, files, hrunning, -, -, rfl⟩ := fail_ok h
    · left
      have hsame : s.phase = .failed ∧ s.failureReason = some code := by
        simpa [endsWell, hterm] using hends
      exact ⟨hsame.1.symm, hsame.2.symm, rfl⟩
    · rw [hrunning] at hterm
      cases hterm
    · rw [hrunning] at hterm
      cases hterm
  | set perfTuning finalArtifact =>
    obtain rfl := Except.ok.inj h
    exact .inl ⟨rfl, rfl, rfl⟩

end State

/-- Where the codes and the last failure of stage 4 come at the right time, `DONE` means
that the plan is finished, and a terminal phase stays. -/
theorem run_doneMeansDone {a : InitArgs} {s₀ s : State} {cs : List Cmd}
    (hinit : init a = .ok s₀)
    (hrun : Run State.step (fun _ t c => t.endsWell c = true) s₀ cs s) :
    s.FinishedWhenDone ∧
      ∀ c u, s.endsWell c = true → s.step c = .ok u → s.StaysTerminal c u := by
  refine ⟨?_, fun c u hends hok => State.step_staysTerminal hends hok⟩
  refine hrun.invariant (I := fun _ t => t.FinishedWhenDone) ?_ ?_
  · obtain ⟨first, rest, rfl⟩ := init_ok hinit
    intro hdone
    have hfresh : ∀ n, stagePhase n ≠ .done := by decide
    exact absurd hdone (hfresh first)
  · exact fun _ _ _ _ hI hends hok => State.step_finishedWhenDone hI hends hok

/-- `init --scenario new_op --stage-plan 1,2,3,4,5`. -/
def integrated : InitArgs := ⟨.newOp, none, 3, some [1, 2, 3, 4, 5]⟩

/-- A stage that passes its gate. -/
def passes (n : Stage) : List Cmd := [.start n false, .complete n true ⟨none, none⟩]

theorem integrated_doneMeansDone :
    ∃ s₀ s, init integrated = .ok s₀ ∧
      Run State.step (fun _ t c => t.endsWell c = true) s₀
        (passes 1 ++ passes 2 ++ passes 3 ++ passes 4 ++ passes 5) s ∧
      s.phase = .done ∧ s.FinishedWhenDone := by
  have hinit : init integrated = .ok (.initial integrated 1 [2, 3, 4, 5]) := rfl
  obtain ⟨s, hrun, hdone⟩ : ∃ s,
      Run State.step (fun _ t c => t.endsWell c = true) (.initial integrated 1 [2, 3, 4, 5])
        (passes 1 ++ passes 2 ++ passes 3 ++ passes 4 ++ passes 5) s ∧ s.phase = .done :=
    ⟨_, Run.of_runAll rfl, rfl⟩
  exact ⟨_, s, hinit, hrun, hdone, (run_doneMeansDone hinit hrun).1⟩

/-- Ten failures of stage 4 finish a run whose stage 5 was never started; and a code
turns a finished run into a failed one. -/
theorem integrated_done_unfinished :
    (∃ s₀ s, init integrated = .ok s₀ ∧
      AnyRun State.step s₀
        (passes 1 ++ passes 2 ++ passes 3 ++ .start 4 false ::
          List.replicate 10 (.fail 4 false .runtime none ⟨none, none⟩)) s ∧
      ¬s.FinishedWhenDone) ∧
    ∃ s₀ s u c, init ⟨.newOp, none, 3, none⟩ = .ok s₀ ∧
      AnyRun State.step s₀ (passes 1 ++ passes 2 ++ passes 3) s ∧
      s.step c = .ok u ∧ ¬s.StaysTerminal c u := by
  constructor
  · have hinit : init integrated = .ok (.initial integrated 1 [2, 3, 4, 5]) := rfl
    refine ⟨_, _, hinit, Run.of_runAll rfl, ?_⟩
    intro hfinished
    exact absurd (hfinished rfl 5 (by decide) (by decide)) (by decide)
  · have hinit : init ⟨.newOp, none, 3, none⟩ =
        .ok (.initial ⟨.newOp, none, 3, none⟩ 1 [2, 3]) := rfl
    refine ⟨_, _, _, .fail 3 false .runtime (some (some .impl)) ⟨none, none⟩, hinit,
      Run.of_runAll rfl, rfl, ?_⟩
    intro hstays
    obtain ⟨hphase, -⟩ | ⟨hstart, -⟩ := hstays rfl
    · cases hphase
    · cases hstart

end TileLangNpuir.Statectl
