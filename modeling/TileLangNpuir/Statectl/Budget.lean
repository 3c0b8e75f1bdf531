import TileLangNpuir.Statectl.Machine
import Mathlib.Algebra.BigOperators.Fin
import Mathlib.Algebra.Order.BigOperators.Group.Finset

/-!
# Retry budgets

Every run of `statectl` accepts a bounded number of `start`, `complete` and `fail`
commands. No counter decreases on its own: a revision of the design resets the
counters of later stages, and a pass or `--extend` opens a finished stage again. What
decreases is `potential`, in which the revisions left outweigh everything else.
-/

namespace TileLangNpuir.Statectl

open Finset

namespace State

/-- What the commands keep. The limit of stage 4 ends the run as `DONE`, so there the
counter may have reached it. -/
structure InBudget (s : State) : Prop where
  alone : ∀ j k, s.stageStatus j = some .inProgress → s.stageStatus k = some .inProgress → j = k
  below : s.phase ≠ .failed → ∀ n l, retryLimit n = some l →
    s.stageRetryCount n < l ∨ s.phase = .done ∧ n = 4 ∧ s.stageStatus 4 = some .failed
  revisions : s.phase ≠ .failed → s.retryCount = 0 ∨ (s.retryCount : ℤ) < s.maxRetry

/-- How many commands a stage is still good for, next to its retries. -/
def statusWeight : Option Status → ℕ
  | none | some .failed => 2
  | some .inProgress => 1
  | some .completed => 0

/-- What a stage can still contribute to a run. -/
def stageWeight (s : State) (n : Stage) : ℕ :=
  statusWeight (s.stageStatus n) + 2 * ((retryLimit n).getD 0 - s.stageRetryCount n)

/-- The unspent pass of a revision. -/
def passWeight (s : State) : ℕ := if s.lastFailureReason = some .designRevision then 2 else 0

/-- What can happen before the next revision. -/
def roundWeight (s : State) : ℕ := ∑ n, s.stageWeight n + s.passWeight

/-- The revisions left. -/
def revisionsLeft (s : State) : ℕ := (max 1 s.maxRetry).toNat - s.retryCount

/-- The potential that accepted commands lower. -/
def potential (s : State) : ℕ :=
  if s.phase = .failed then 0 else 61 * s.revisionsLeft + s.roundWeight

/-! ## Weights -/

variable {s t u : State} {n : Stage}

theorem statusWeight_le (v : Option Status) : statusWeight v ≤ 2 := by
  rcases v with _ | (_ | _ | _) <;> decide

theorem roundWeight_le (s : State) : s.roundWeight ≤ 60 := by
  have hpass : s.passWeight ≤ 2 := by
    rw [passWeight]
    split <;> omega
  have hsum : ∑ n, s.stageWeight n ≤ ∑ n : Stage, (2 + 2 * (retryLimit n).getD 0) := by
    apply sum_le_sum
    intro n _
    have := statusWeight_le (s.stageStatus n)
    rw [stageWeight]
    omega
  have htotal : ∑ n : Stage, (2 + 2 * (retryLimit n).getD 0) = 58 := by decide
  rw [roundWeight]
  omega

/-- Where only one stage changed, so did only its share of the sum. -/
theorem roundWeight_add (hrest : ∀ m, m ≠ n → u.stageWeight m = s.stageWeight m) :
    u.roundWeight + s.stageWeight n + s.passWeight =
      s.roundWeight + u.stageWeight n + u.passWeight := by
  rw [roundWeight, roundWeight, ← add_sum_erase univ u.stageWeight (mem_univ n),
    ← add_sum_erase univ s.stageWeight (mem_univ n)]
  have : ∑ m ∈ univ.erase n, u.stageWeight m = ∑ m ∈ univ.erase n, s.stageWeight m :=
    sum_congr rfl fun m hm => hrest m (ne_of_mem_erase hm)
  omega

/-- A new status, and no new failure. -/
theorem roundWeight_update {v : Option Status}
    (hstatus : u.stageStatus = Function.update s.stageStatus n v)
    (hcount : u.stageRetryCount = s.stageRetryCount) :
    u.roundWeight + statusWeight (s.stageStatus n) + s.passWeight =
      s.roundWeight + statusWeight v + u.passWeight := by
  have hadd : u.roundWeight + s.stageWeight n + s.passWeight =
      s.roundWeight + u.stageWeight n + u.passWeight := by
    apply roundWeight_add
    intro m hm
    rw [stageWeight, stageWeight, hstatus, hcount, Function.update_of_ne hm]
  rw [stageWeight, stageWeight, hstatus, hcount, Function.update_self] at hadd
  omega

theorem isTerminal_eq_false_iff {p : Phase} : p.isTerminal = false ↔ p ≠ .done ∧ p ≠ .failed := by
  cases p <;> simp [Phase.isTerminal]

theorem stagePhase_ne_failed (m : Stage) : stagePhase m ≠ .failed :=
  (isTerminal_eq_false_iff.mp (stagePhase_isTerminal m)).2

theorem exists_retryLimit (hn : n ≠ 2) : ∃ l, retryLimit n = some l := by
  apply Option.isSome_iff_exists.mp
  revert n
  decide

theorem InBudget.revisionsLeft_pos (hI : s.InBudget) (hphase : s.phase ≠ .failed) :
    0 < s.revisionsLeft := by
  rw [revisionsLeft]
  have := hI.revisions hphase
  omega

theorem potential_of_ne (hphase : s.phase ≠ .failed) :
    s.potential = 61 * s.revisionsLeft + s.roundWeight := if_neg hphase

theorem potential_of_failed (hphase : s.phase = .failed) : s.potential = 0 := if_pos hphase

/-! ## Commands -/

/-- What a command does to the potential. -/
structure Spends (s u : State) (d : ℕ) : Prop where
  inBudget : u.InBudget
  le : u.potential + d ≤ s.potential

/-- A command that keeps the counters of revisions. -/
theorem Spends.of_roundWeight {d : ℕ} (hI : u.InBudget) (hs : s.phase ≠ .failed)
    (hu : u.phase ≠ .failed) (hmax : u.maxRetry = s.maxRetry) (hretry : u.retryCount = s.retryCount)
    (hround : u.roundWeight + d ≤ s.roundWeight) : Spends s u d := by
  refine ⟨hI, ?_⟩
  rw [potential_of_ne hs, potential_of_ne hu, revisionsLeft, revisionsLeft, hmax, hretry]
  omega

theorem start_spends {extend : Bool} (hI : s.InBudget) (h : Started s n extend u) :
    Spends s u 1 := by
  obtain ⟨last, hentry, rfl⟩ := h.entered
  have hs : s.phase ≠ .failed := by
    intro hfailed
    have := h.reopened (by rw [hfailed]; rfl)
    rw [hfailed] at this
    cases this
  have hcount : ∀ l, retryLimit n = some l → s.stageRetryCount n < l := by
    intro l hl
    obtain hlt | ⟨-, rfl, hfailed⟩ := hI.below hs n l hl
    · exact hlt
    · cases hentry with
      | fresh hstatus => rw [hstatus] at hfailed; cases hfailed
      | again _ hlimit => exact hlimit l hl
      | revision hstage => exact absurd hstage (by decide)
  refine .of_roundWeight ⟨?_, ?_, ?_⟩ hs (stagePhase_ne_failed n) rfl rfl ?_
  · have honly : ∀ j, Function.update s.stageStatus n (some .inProgress) j = some .inProgress →
        j = n := by
      intro j hj
      by_contra hne
      rw [Function.update_of_ne hne] at hj
      exact h.alone j hne hj
    intro j k hj hk
    rw [honly j hj, honly k hk]
  · intro _ m l hl
    left
    by_cases hm : m = n
    · subst hm
      exact hcount l hl
    · obtain hlt | ⟨hdone, rfl, -⟩ := hI.below hs m l hl
      · exact hlt
      · -- a finished run is only opened for stage 4
        have := h.extends_ (.inl (by rw [hdone]; rfl))
        exact absurd this.2.symm hm
  · exact fun _ => hI.revisions hs
  · set u := { s with
      stagePlan := s.planFor n
      finalArtifact := if s.phase.isTerminal then none else s.finalArtifact
      lastFailureReason := last
      stageStatus := Function.update s.stageStatus n (some .inProgress)
      phase := stagePhase n
      currentStage := n } with hu
    have hadd := roundWeight_update (s := s) (u := u) (n := n) (v := some .inProgress) rfl rfl
    have hold : statusWeight (some .inProgress) + u.passWeight + 1 ≤
        statusWeight (s.stageStatus n) + s.passWeight := by
      cases hentry with
      | fresh hstatus =>
        have hpass : u.passWeight = s.passWeight := rfl
        rw [hstatus, hpass]
        simp only [statusWeight]
        omega
      | again hstatus =>
        have hpass : u.passWeight = s.passWeight := rfl
        rw [hstatus, hpass]
        simp only [statusWeight]
        omega
      | revision _ hstatus hlast =>
        rw [hstatus, passWeight, passWeight, hlast]
        exact Nat.le_refl _
    omega

theorem complete_spends {gate : Bool} (hI : s.InBudget) (h : Completed s n gate u) :
    Spends s u 1 := by
  obtain ⟨phase, stage, artifact, hphase, rfl⟩ := h.next
  obtain ⟨hdone, hs⟩ := isTerminal_eq_false_iff.mp h.running
  have hu : phase ≠ .failed := by
    obtain ⟨rfl, -⟩ | hrunning := hphase
    · decide
    · exact (isTerminal_eq_false_iff.mp hrunning).2
  refine .of_roundWeight ⟨?_, ?_, ?_⟩ hs hu rfl rfl ?_
  · have honly : ∀ j, Function.update s.stageStatus n (some .completed) j = some .inProgress →
        s.stageStatus j = some .inProgress := by
      intro j hj
      by_cases hne : j = n
      · subst hne
        exact h.status
      · rwa [Function.update_of_ne hne] at hj
    intro j k hj hk
    exact hI.alone j k (honly j hj) (honly k hk)
  · intro _ m l hl
    obtain hlt | ⟨hterm, -⟩ := hI.below hs m l hl
    · exact .inl hlt
    · exact absurd hterm hdone
  · exact fun _ => hI.revisions hs
  · have hadd := roundWeight_update (s := s)
      (u := { s with
        stageStatus := Function.update s.stageStatus n (some .completed)
        phase := phase
        currentStage := stage
        finalArtifact := artifact })
      (n := n) (v := some .completed) rfl rfl
    rw [h.status] at hadd
    simp only [statusWeight, passWeight] at hadd ⊢
    omega

theorem reviseDesign_stageStatus_inProgress {j : Stage}
    (h : (s.reviseDesign n).stageStatus j = some .inProgress) :
    s.stageStatus j = some .inProgress := by
  rw [reviseDesign_stageStatus] at h
  split at h
  · cases h
  · split at h
    · cases h
    · exact h

/-- A revision gives up one unit of the leading digit, and whatever it resets is worth
less than that. -/
theorem reviseDesign_spends (hI : s.InBudget) (hrunning : s.phase.isTerminal = false) :
    Spends s (s.reviseDesign n) 1 := by
  obtain ⟨hdone, hs⟩ := isTerminal_eq_false_iff.mp hrunning
  have hleft := hI.revisionsLeft_pos hs
  have hphase := s.reviseDesign_phase n
  refine ⟨⟨?_, ?_, ?_⟩, ?_⟩
  · intro j k hj hk
    exact hI.alone j k (reviseDesign_stageStatus_inProgress hj) (reviseDesign_stageStatus_inProgress hk)
  · intro _ m l hl
    obtain hlt | ⟨hterm, -⟩ := hI.below hs m l hl
    · left
      rw [reviseDesign_stageRetryCount]
      split <;> omega
    · exact absurd hterm hdone
  · intro hne
    right
    rw [hphase] at hne
    split at hne
    · exact absurd rfl hne
    · rw [reviseDesign_retryCount, reviseDesign_maxRetry]
      omega
  · rw [potential_of_ne hs]
    by_cases hfailed : (s.reviseDesign n).phase = .failed
    · rw [potential_of_failed hfailed]
      omega
    · have hround := roundWeight_le (s.reviseDesign n)
      rw [potential_of_ne hfailed]
      rw [revisionsLeft] at hleft ⊢
      rw [revisionsLeft, reviseDesign_retryCount, reviseDesign_maxRetry]
      omega

theorem countFailure_spends {failType : FailType} {files : Files} (hI : s.InBudget)
    (hrunning : s.phase.isTerminal = false) (hstage : n ≠ 2)
    (hstatus : s.stageStatus n = some .inProgress ∨ s.stageStatus n = some .failed) :
    Spends s (s.countFailure n failType files) 1 := by
  obtain ⟨hdone, hs⟩ := isTerminal_eq_false_iff.mp hrunning
  obtain ⟨l, hl⟩ := exists_retryLimit hstage
  have hcount : ∀ m l, retryLimit m = some l → s.stageRetryCount m < l := by
    intro m l hl
    obtain hlt | ⟨hterm, -⟩ := hI.below hs m l hl
    · exact hlt
    · exact absurd hterm hdone
  have hleft := hI.revisionsLeft_pos hs
  have hphase := s.countFailure_phase n failType files
  have hexhausts : s.exhausts n ↔ l ≤ s.stageRetryCount n + 1 := by
    simp [exhausts, hl]
  set u := s.countFailure n failType files with hu
  have hstatusU : u.stageStatus = Function.update s.stageStatus n (some .failed) :=
    s.countFailure_stageStatus n failType files
  have hcountU : u.stageRetryCount =
      Function.update s.stageRetryCount n (s.stageRetryCount n + 1) :=
    s.countFailure_stageRetryCount n failType files
  have hI' : u.InBudget := by
    refine ⟨?_, ?_, ?_⟩
    · have honly : ∀ j, u.stageStatus j = some .inProgress → s.stageStatus j = some .inProgress := by
        intro j hj
        rw [hstatusU] at hj
        by_cases hne : j = n
        · rw [hne, Function.update_self] at hj
          cases hj
        · rwa [Function.update_of_ne hne] at hj
      exact fun j k hj hk => hI.alone j k (honly j hj) (honly k hk)
    · intro hne m l' hl'
      rw [hcountU, hstatusU]
      by_cases hm : m = n
      · subst hm
        rw [hl] at hl'
        obtain rfl := Option.some.inj hl'
        rw [Function.update_self]
        by_cases hlim : s.exhausts m
        · rw [hphase, if_pos hlim] at hne ⊢
          right
          by_cases hfour : m = 4
          · subst hfour
            exact ⟨if_pos rfl, rfl, Function.update_self ..⟩
          · exact absurd (if_neg hfour) hne
        · left
          rw [hexhausts] at hlim
          omega
      · left
        rw [Function.update_of_ne hm]
        exact hcount m l' hl'
    · intro hne
      rw [hu, countFailure_retryCount, countFailure_maxRetry]
      exact hI.revisions hs
  by_cases hfailed : u.phase = .failed
  · refine ⟨hI', ?_⟩
    rw [potential_of_failed hfailed, potential_of_ne hs]
    omega
  · refine .of_roundWeight hI' hs hfailed ?_ ?_ ?_
    · exact s.countFailure_maxRetry n failType files
    · exact s.countFailure_retryCount n failType files
    · have hadd : u.roundWeight + s.stageWeight n + s.passWeight =
          s.roundWeight + u.stageWeight n + u.passWeight := by
        apply roundWeight_add
        intro m hm
        rw [stageWeight, stageWeight, hstatusU, hcountU, Function.update_of_ne hm,
          Function.update_of_ne hm]
      have hpass : u.passWeight = s.passWeight := by
        rw [passWeight, passWeight, hu, countFailure_lastFailureReason]
      have hold : 1 ≤ statusWeight (s.stageStatus n) := by
        obtain h | h := hstatus <;> rw [h] <;> decide
      have hnew : statusWeight (some .failed) = 2 := rfl
      have hlt := hcount n l hl
      rw [stageWeight, stageWeight, hstatusU, hcountU, Function.update_self, Function.update_self,
        hl, Option.getD_some] at hadd
      omega

/-- The commands that the budget counts: `start`, `complete`, and `fail` without a
code. -/
def counted : Cmd → Bool
  | .start .. | .complete .. | .fail _ _ _ none _ => true
  | _ => false

theorem step_spends {c : Cmd} (hI : s.InBudget) (h : s.step c = .ok u) :
    Spends s u (if counted c then 1 else 0) := by
  cases c with
  | init args => cases h
  | start n extend => exact start_spends hI (start_ok h)
  | complete n gate files => exact complete_spends hI (complete_ok h)
  | fail n r failType code files =>
    obtain ⟨r, code, rfl⟩ | ⟨hrunning, -, rfl⟩ | ⟨failType, files, hrunning, hstage, hstatus, rfl⟩ :=
      fail_ok h
    · refine ⟨⟨hI.alone, fun h => absurd rfl h, fun h => absurd rfl h⟩, ?_⟩
      rw [potential_of_failed rfl]
      exact Nat.zero_le _
    · exact reviseDesign_spends hI hrunning
    · exact countFailure_spends hI hrunning hstage hstatus
  | set perfTuning finalArtifact =>
    obtain rfl := Except.ok.inj h
    exact ⟨⟨hI.alone, hI.below, hI.revisions⟩, Nat.le_refl _⟩

end State

/-! ## Runs -/

theorem retryLimit_pos {n : Stage} {l : ℕ} (hl : retryLimit n = some l) : 0 < l := by
  have hall : ∀ n : Stage, (retryLimit n).all (0 < ·) = true := by decide
  simpa [hl] using hall n

theorem init_inBudget {a : InitArgs} {s : State} (h : init a = .ok s) : s.InBudget := by
  obtain ⟨first, rest, rfl⟩ := init_ok h
  refine ⟨?_, ?_, ?_⟩
  · intro j k hj
    cases hj
  · intro _ n l hl
    exact .inl (retryLimit_pos hl)
  · exact fun _ => .inl rfl

/-- The number of counted commands that a run can accept. -/
def commandBudget (maxRetry : ℤ) : ℕ := 61 * (max 1 maxRetry).toNat + 58

theorem init_potential {a : InitArgs} {s : State} (h : init a = .ok s) :
    s.potential = commandBudget a.maxRetry := by
  obtain ⟨first, rest, rfl⟩ := init_ok h
  rw [State.potential_of_ne (State.stagePhase_ne_failed first)]
  have hround : ∑ n : Stage, (2 + 2 * ((retryLimit n).getD 0 - 0)) = 58 := by decide
  exact congrArg (61 * (max 1 a.maxRetry).toNat + ·) hround

/-- Every run is finite: one stage runs at a time, no running state has used up a
stage's retries, and the accepted commands are bounded by `--max-retry` alone. -/
theorem run_inBudget {a : InitArgs} {s₀ s : State} {cs : List Cmd} (hinit : init a = .ok s₀)
    (hrun : AnyRun State.step s₀ cs s) :
    (∀ j k, s.stageStatus j = some .inProgress → s.stageStatus k = some .inProgress → j = k) ∧
      (s.phase.isTerminal = false → ∀ n l, retryLimit n = some l → s.stageRetryCount n < l) ∧
      (cs.filter State.counted).length ≤ commandBudget a.maxRetry := by
  have hI : s.InBudget :=
    Run.invariant (I := fun _ t => t.InBudget) (init_inBudget hinit)
      (fun _ _ _ _ hI _ hok => (State.step_spends hI hok).inBudget) hrun
  refine ⟨hI.alone, ?_, ?_⟩
  · intro hrunning n l hl
    obtain ⟨hdone, hfailed⟩ := State.isTerminal_eq_false_iff.mp hrunning
    obtain hlt | ⟨hterm, -⟩ := hI.below hfailed n l hl
    · exact hlt
    · exact absurd hterm hdone
  · have hcount : (cs.filter State.counted).length + s.potential ≤ s₀.potential := by
      refine hrun.count_add_le (init_inBudget hinit) fun t c u hI hok => ?_
      have hspends := State.step_spends hI hok
      have hle := hspends.le
      refine ⟨hspends.inBudget, by omega, fun hc => ?_⟩
      rw [if_pos hc] at hle
      omega
    rw [init_potential hinit] at hcount
    omega

theorem newOp_run_inBudget :
    ∃ s, init ⟨.newOp, none, 3, none⟩ = .ok (.initial ⟨.newOp, none, 3, none⟩ 1 [2, 3]) ∧
      AnyRun State.step (.initial ⟨.newOp, none, 3, none⟩ 1 [2, 3])
        [.start 1 false, .complete 1 true ⟨none, none⟩, .start 2 false] s ∧
      s.stageStatus 2 = some .inProgress ∧
      ([.start 1 false, .complete 1 true ⟨none, none⟩, .start 2 false].filter
        State.counted).length ≤ commandBudget 3 := by
  have hinit : init ⟨.newOp, none, 3, none⟩ = .ok (.initial ⟨.newOp, none, 3, none⟩ 1 [2, 3]) := rfl
  refine ⟨_, hinit, Run.of_runAll rfl, rfl, ?_⟩
  exact (run_inBudget hinit (Run.of_runAll rfl)).2.2

end TileLangNpuir.Statectl
