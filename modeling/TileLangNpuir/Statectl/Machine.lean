import TileLangNpuir.Lib.Runs
import Mathlib.Data.Fintype.Basic
import Mathlib.Data.Fin.Basic
import Mathlib.Algebra.GroupWithZero.Nat

/-!
# `statectl`

The state machine of the operator conductor (`.agents/tools/statectl.py`): the state
file, and the commands `init`, `start`, `complete`, `fail` and `set`. A command that
is rejected writes nothing. What the commands read from disk (gate outcomes, which
kernels exist) is part of the command.
-/

namespace TileLangNpuir.Statectl

/-- Stages `0` to `5`. -/
abbrev Stage : Type := Fin 6

instance stageNeZero : NeZero 6 := ⟨by decide⟩

instance stageLawfulBEq : LawfulBEq Stage := inferInstance

/-- `phase`. -/
inductive Phase : Type where
  | scaffold | design | review | develop | tuning | integrate
  | done | failed
  deriving DecidableEq

/-- `STAGE_PHASE`. -/
def stagePhase : Stage → Phase
  | 0 => .scaffold
  | 1 => .design
  | 2 => .review
  | 3 => .develop
  | 4 => .tuning
  | 5 => .integrate

/-- `TERMINAL_PHASES`. -/
def Phase.isTerminal : Phase → Bool
  | .done | .failed => true
  | _ => false

/-- `STAGE_RETRY_LIMITS`. -/
def retryLimit : Stage → Option ℕ
  | 0 => some 3
  | 1 => some 3
  | 2 => none
  | 3 => some 5
  | 4 => some 10
  | 5 => some 2

/-- A value of `stage_status`. -/
inductive Status : Type where
  | inProgress | completed | failed
  deriving DecidableEq

/-- `BLOCKED_CODES`. -/
inductive BlockedCode : Type where
  | design | impl | accuracy | scaffold | integration | environment | spec
  deriving DecidableEq

/-- `last_failure_reason`. -/
inductive FailureReason : Type where
  | designRevision
  | blocked (code : BlockedCode)
  deriving DecidableEq

/-- `--scenario`. -/
inductive Scenario : Type where
  | newOp | migration | optimize
  deriving DecidableEq

/-- `--migration-mode`. -/
inductive MigrationMode : Type where
  | harness | plain
  deriving DecidableEq

/-- `--fail-type`. -/
inductive FailType : Type where
  | runtime | precision
  deriving DecidableEq

/-- The state file, without the fields that no command reads back. -/
structure State : Type where
  scenario : Scenario
  stagePlan : List Stage
  phase : Phase
  currentStage : Stage
  retryCount : ℕ
  maxRetry : ℤ
  finalArtifact : Option String
  stageStatus : Stage → Option Status
  stageRetryCount : Stage → ℕ
  runtimeFail : ℕ
  precisionFail : ℕ
  perfTuningRequested : Option Bool
  failureReason : Option BlockedCode
  lastFailureReason : Option FailureReason

/-- The codes of rejected commands. -/
inductive ErrorCode : Type where
  | exists | scenario
  | terminal | notInPlan | concurrent | alreadyStarted | completed | retryExceeded | outOfOrder
  | duplicateComplete | notStarted | gate
  | badCode | stage2Revision | completedFail
  deriving DecidableEq

/-! ## `init` -/

/-- The arguments of `init` that matter later. -/
structure InitArgs : Type where
  scenario : Scenario
  migrationMode : Option MigrationMode
  maxRetry : ℤ
  /-- `--stage-plan`, as integers -/
  stagePlan : Option (List ℤ)

/-- `scenario_stage_plan`. -/
def scenarioStagePlan : Scenario → Option MigrationMode → Option (List Stage)
  | .optimize, none => some [4]
  | .optimize, some _ => none
  | .migration, some _ => some [1, 2, 3]
  | .migration, none => none
  | .newOp, none => some [1, 2, 3]
  | .newOp, some _ => none

/-- A stage of `STAGE_PHASE`. -/
def parseStage (k : ℤ) : Option Stage :=
  if h : 0 ≤ k ∧ k < 6 then some ⟨k.toNat, by omega⟩ else none

/-- The state that `cmd_init` writes. -/
def State.initial (a : InitArgs) (first : Stage) (rest : List Stage) : State where
  scenario := a.scenario
  stagePlan := first :: rest
  phase := stagePhase first
  currentStage := first
  retryCount := 0
  maxRetry := a.maxRetry
  finalArtifact := none
  stageStatus := fun _ => none
  stageRetryCount := fun _ => 0
  runtimeFail := 0
  precisionFail := 0
  perfTuningRequested := none
  failureReason := none
  lastFailureReason := none

/-- `cmd_init`, where there is no state file. -/
def init (a : InitArgs) : Except ErrorCode State :=
  let plan := match scenarioStagePlan a.scenario a.migrationMode, a.stagePlan with
    | none, _ => none
    | some plan, none => some plan
    | some _, some ks => ks.mapM parseStage
  match plan with
  | some (first :: rest) => .ok (.initial a first rest)
  | _ => .error .scenario

theorem init_ok {a : InitArgs} {s : State} (h : init a = .ok s) :
    ∃ first rest, s = .initial a first rest := by
  unfold init at h
  dsimp only at h
  split at h
  · rename_i first rest _
    exact ⟨first, rest, (Except.ok.inj h).symm⟩
  · cases h

/-! ## Commands -/

/-- The kernels that exist on disk, by path. -/
structure Files : Type where
  kernel : Option String
  kernelOpt : Option String

/-- Commands, with what they find on disk. -/
inductive Cmd : Type where
  | init (args : InitArgs)
  | start (stage : Stage) (extend : Bool)
  | complete (stage : Stage) (gate : Bool) (files : Files)
  /-- `--reason design_revision`, `--fail-type`, `--blocked-code`; a code that is not
  one of `BLOCKED_CODES` is `some none` -/
  | fail (stage : Stage) (designRevision : Bool) (failType : FailType)
      (blockedCode : Option (Option BlockedCode)) (files : Files)
  | set (perfTuning : Option Bool) (finalArtifact : Option String)

/-- The stages before a stage in a plan. -/
def before (plan : List Stage) (n : Stage) : List Stage := plan.takeWhile (· ≠ n)

/-- `sorted(set(stage_plan) | {4})`. -/
def extendPlan (plan : List Stage) : List Stage :=
  (List.finRange 6).filter fun m => m ∈ plan ∨ m = 4

namespace State

/-- The end of `cmd_start`. -/
def enter (s : State) (n : Stage) : State :=
  { s with
    stageStatus := Function.update s.stageStatus n (some .inProgress)
    phase := stagePhase n
    currentStage := n }

/-- `start 4 --extend` may reopen a finished run. -/
def reopens (s : State) (n : Stage) (extend : Bool) : Bool :=
  extend && s.phase = .done && s.failureReason = none && n = 4 && s.scenario ≠ .optimize &&
    s.stageStatus 3 = some .completed && s.perfTuningRequested ≠ some false

/-- The plan that `start` goes by. -/
def planFor (s : State) (n : Stage) : List Stage :=
  if s.phase.isTerminal || n ∉ s.stagePlan then extendPlan s.stagePlan else s.stagePlan

/-- `cmd_start`. -/
def start (s : State) (n : Stage) (extend : Bool) : Except ErrorCode State :=
  if s.phase.isTerminal && !s.reopens n extend then .error .terminal
  else if !s.phase.isTerminal && n ∉ s.stagePlan && !(extend && n = 4) then .error .notInPlan
  else
    let s' := { s with
      stagePlan := s.planFor n
      finalArtifact := if s.phase.isTerminal then none else s.finalArtifact }
    if ∃ k, k ≠ n ∧ s.stageStatus k = some .inProgress then .error .concurrent
    else match s.stageStatus n with
      | some .inProgress => .error .alreadyStarted
      | some .completed =>
        -- one revision of the design may enter the stage again
        if n = 1 ∧ s.lastFailureReason = some .designRevision ∧ (s.retryCount : ℤ) < s.maxRetry then
          .ok ({ s' with lastFailureReason := none }.enter n)
        else .error .completed
      | some .failed =>
        if (retryLimit n).any (· ≤ s.stageRetryCount n) then .error .retryExceeded
        else .ok (s'.enter n)
      | none =>
        if ∀ m ∈ before (s.planFor n) n, s.stageStatus m = some .completed then .ok (s'.enter n)
        else .error .outOfOrder

/-- `choose_final_artifact`. -/
def chooseFinalArtifact (s : State) (files : Files) : Option String :=
  if s.stageStatus 4 = some .completed ∨ s.scenario = .optimize then
    files.kernelOpt.or files.kernel
  else files.kernel

/-- `cmd_complete`. -/
def complete (s : State) (n : Stage) (gate : Bool) (files : Files) : Except ErrorCode State :=
  if s.phase.isTerminal then .error .terminal
  else match s.stageStatus n with
    | some .inProgress =>
      if gate then
        let s := { s with stageStatus := Function.update s.stageStatus n (some .completed) }
        match s.stagePlan.find? fun m => s.stageStatus m ≠ some .completed with
        | none => .ok { s with phase := .done, finalArtifact := s.chooseFinalArtifact files }
        | some m => .ok { s with phase := stagePhase m, currentStage := m }
      else .error .gate
    | some .completed => .error .duplicateComplete
    | _ => .error .notStarted

/-- `fail --reason design_revision`: the stages after the design start afresh. -/
def reviseDesign (s : State) (n : Stage) : State :=
  let s := { s with
    stageStatus := fun m =>
      if m ∈ s.stagePlan ∧ 1 < m then none
      else if m = n then some .failed
      else s.stageStatus m
    stageRetryCount := fun m => if m ∈ s.stagePlan ∧ 1 < m then 0 else s.stageRetryCount m
    retryCount := s.retryCount + 1
    lastFailureReason := some .designRevision }
  if s.maxRetry ≤ s.retryCount then { s with phase := .failed, failureReason := some .design } else s

/-- `BLOCKED_BY_STAGE`, and the codes of stage 3. -/
def blockedByStage (n : Stage) (failType : FailType) : BlockedCode :=
  match n with
  | 0 => .scaffold
  | 1 => .design
  | 3 => if failType = .precision then .accuracy else .impl
  | _ => .integration

/-- A failure that counts against the stage. -/
def countFailure (s : State) (n : Stage) (failType : FailType) (files : Files) : State :=
  let s := { s with
    stageRetryCount := Function.update s.stageRetryCount n (s.stageRetryCount n + 1)
    stageStatus := Function.update s.stageStatus n (some .failed)
    runtimeFail := if n = 3 ∧ failType = .runtime then s.runtimeFail + 1 else s.runtimeFail
    precisionFail := if n = 3 ∧ failType = .precision then s.precisionFail + 1 else s.precisionFail }
  if (retryLimit n).any (· ≤ s.stageRetryCount n) then
    -- the limit of stage 4 delivers the best version so far
    if n = 4 then { s with phase := .done, finalArtifact := s.chooseFinalArtifact files }
    else { s with phase := .failed, failureReason := some (blockedByStage n failType) }
  else s

/-- `cmd_fail`. -/
def fail (s : State) (n : Stage) (designRevision : Bool) (failType : FailType)
    (blockedCode : Option (Option BlockedCode)) (files : Files) : Except ErrorCode State :=
  match blockedCode with
  | some none => .error .badCode
  | some (some code) => .ok
    { s with phase := .failed, failureReason := some code, lastFailureReason := some (.blocked code) }
  | none =>
    if s.phase.isTerminal then .error .terminal
    else if designRevision then
      if s.stageStatus n = none then .error .notStarted else .ok (s.reviseDesign n)
    else if n = 2 then .error .stage2Revision
    else match s.stageStatus n with
      | some .completed => .error .completedFail
      | none => .error .notStarted
      | _ => .ok (s.countFailure n failType files)

/-- `cmd_set`. -/
def set (s : State) (perfTuning : Option Bool) (finalArtifact : Option String) : State :=
  { s with
    perfTuningRequested := perfTuning.or s.perfTuningRequested
    finalArtifact := finalArtifact.or s.finalArtifact }

/-- One command on an existing state file. -/
def step (s : State) : Cmd → Except ErrorCode State
  | .init _ => .error .exists
  | .start n extend => s.start n extend
  | .complete n gate files => s.complete n gate files
  | .fail n designRevision failType blockedCode files =>
    s.fail n designRevision failType blockedCode files
  | .set perfTuning finalArtifact => .ok (s.set perfTuning finalArtifact)

section Fields

variable (s : State) (n : Stage) (failType : FailType) (files : Files)

@[simp]
theorem reviseDesign_stagePlan : (s.reviseDesign n).stagePlan = s.stagePlan := by
  unfold reviseDesign; dsimp only; split <;> rfl

@[simp]
theorem reviseDesign_stageStatus (m : Stage) : (s.reviseDesign n).stageStatus m =
    if m ∈ s.stagePlan ∧ 1 < m then none else if m = n then some .failed else s.stageStatus m := by
  unfold reviseDesign; dsimp only; split <;> rfl

@[simp]
theorem reviseDesign_stageRetryCount (m : Stage) : (s.reviseDesign n).stageRetryCount m =
    if m ∈ s.stagePlan ∧ 1 < m then 0 else s.stageRetryCount m := by
  unfold reviseDesign; dsimp only; split <;> rfl

@[simp]
theorem reviseDesign_retryCount : (s.reviseDesign n).retryCount = s.retryCount + 1 := by
  unfold reviseDesign; dsimp only; split <;> rfl

@[simp]
theorem reviseDesign_maxRetry : (s.reviseDesign n).maxRetry = s.maxRetry := by
  unfold reviseDesign; dsimp only; split <;> rfl

theorem reviseDesign_phase : (s.reviseDesign n).phase =
    if s.maxRetry ≤ (s.retryCount + 1 : ℕ) then .failed else s.phase := by
  unfold reviseDesign; dsimp only; split <;> rfl

/-- The stage has used up its retries with this failure. -/
def exhausts : Prop := (retryLimit n).any (· ≤ s.stageRetryCount n + 1) = true

instance : Decidable (s.exhausts n) := inferInstanceAs (Decidable (_ = true))

theorem countFailure_eq : s.countFailure n failType files =
    let s' := { s with
      stageRetryCount := Function.update s.stageRetryCount n (s.stageRetryCount n + 1)
      stageStatus := Function.update s.stageStatus n (some .failed)
      runtimeFail := if n = 3 ∧ failType = .runtime then s.runtimeFail + 1 else s.runtimeFail
      precisionFail := if n = 3 ∧ failType = .precision then s.precisionFail + 1 else s.precisionFail }
    if s.exhausts n then
      if n = 4 then { s' with phase := .done, finalArtifact := s'.chooseFinalArtifact files }
      else { s' with phase := .failed, failureReason := some (blockedByStage n failType) }
    else s' := by
  simp only [countFailure, exhausts, Function.update_self]

@[simp]
theorem countFailure_stagePlan : (s.countFailure n failType files).stagePlan = s.stagePlan := by
  rw [countFailure_eq]; dsimp only; split_ifs <;> rfl

@[simp]
theorem countFailure_stageStatus : (s.countFailure n failType files).stageStatus =
    Function.update s.stageStatus n (some .failed) := by
  rw [countFailure_eq]; dsimp only; split_ifs <;> rfl

@[simp]
theorem countFailure_stageRetryCount : (s.countFailure n failType files).stageRetryCount =
    Function.update s.stageRetryCount n (s.stageRetryCount n + 1) := by
  rw [countFailure_eq]; dsimp only; split_ifs <;> rfl

@[simp]
theorem countFailure_retryCount : (s.countFailure n failType files).retryCount = s.retryCount := by
  rw [countFailure_eq]; dsimp only; split_ifs <;> rfl

@[simp]
theorem countFailure_maxRetry : (s.countFailure n failType files).maxRetry = s.maxRetry := by
  rw [countFailure_eq]; dsimp only; split_ifs <;> rfl

@[simp]
theorem countFailure_lastFailureReason :
    (s.countFailure n failType files).lastFailureReason = s.lastFailureReason := by
  rw [countFailure_eq]; dsimp only; split_ifs <;> rfl

theorem countFailure_phase : (s.countFailure n failType files).phase =
    if s.exhausts n then if n = 4 then .done else .failed else s.phase := by
  rw [countFailure_eq]; dsimp only; split_ifs <;> rfl

end Fields

/-! ## What an accepted command does -/

/-- How a stage can be entered; `last` is the failure reason afterwards. -/
inductive Entry (s : State) (n : Stage) : Option FailureReason → Prop
  | fresh (hstatus : s.stageStatus n = none)
      (hbefore : ∀ m ∈ before (s.planFor n) n, s.stageStatus m = some .completed) :
      Entry s n s.lastFailureReason
  | again (hstatus : s.stageStatus n = some .failed)
      (hlimit : ∀ l, retryLimit n = some l → s.stageRetryCount n < l) :
      Entry s n s.lastFailureReason
  | revision (hstage : n = 1) (hstatus : s.stageStatus n = some .completed)
      (hlast : s.lastFailureReason = some .designRevision)
      (hretry : (s.retryCount : ℤ) < s.maxRetry) : Entry s n none

/-- An accepted `start`. -/
structure Started (s : State) (n : Stage) (extend : Bool) (u : State) : Prop where
  alone : ∀ k, k ≠ n → s.stageStatus k ≠ some .inProgress
  inPlan : n ∈ s.planFor n
  extends_ : s.phase.isTerminal = true ∨ n ∉ s.stagePlan → extend = true ∧ n = 4
  reopened : s.phase.isTerminal = true → s.phase = .done
  entered : ∃ last, Entry s n last ∧
    u = { s with
      stagePlan := s.planFor n
      finalArtifact := if s.phase.isTerminal then none else s.finalArtifact
      lastFailureReason := last
      stageStatus := Function.update s.stageStatus n (some .inProgress)
      phase := stagePhase n
      currentStage := n }

variable {s u : State} {n : Stage}

theorem mem_extendPlan {plan : List Stage} {m : Stage} : m ∈ extendPlan plan ↔ m ∈ plan ∨ m = 4 := by
  simp [extendPlan]

theorem start_ok {extend : Bool} (h : s.start n extend = .ok u) : Started s n extend u := by
  rw [start] at h
  split at h
  · cases h
  rename_i hterm
  split at h
  · cases h
  rename_i hplan
  simp only [Bool.and_eq_true, Bool.not_eq_true', not_and, Bool.not_eq_false] at hterm hplan
  simp only at h
  by_cases halone : ∃ k, k ≠ n ∧ s.stageStatus k = some .inProgress
  · rw [if_pos halone] at h
    cases h
  rw [if_neg halone] at h
  have hreopen : s.phase.isTerminal = true → extend = true ∧ n = 4 ∧ s.phase = .done := by
    intro ht
    have hr := hterm ht
    simp only [reopens, Bool.and_eq_true, decide_eq_true_eq] at hr
    obtain ⟨⟨⟨⟨⟨⟨hext, hphase⟩, -⟩, hn⟩, -⟩, -⟩, -⟩ := hr
    exact ⟨hext, hn, hphase⟩
  have hextends : s.phase.isTerminal = true ∨ n ∉ s.stagePlan → extend = true ∧ n = 4 := by
    rintro (ht | hn)
    · exact ⟨(hreopen ht).1, (hreopen ht).2.1⟩
    · by_cases ht : s.phase.isTerminal = true
      · exact ⟨(hreopen ht).1, (hreopen ht).2.1⟩
      · have := hplan ⟨Bool.eq_false_iff.mpr ht, decide_eq_true hn⟩
        simpa using this
  refine ⟨fun k hk hip => halone ⟨k, hk, hip⟩, ?_, hextends, fun ht => (hreopen ht).2.2, ?_⟩
  · rw [planFor]
    split
    · rename_i hor
      simp only [Bool.or_eq_true, decide_eq_true_eq] at hor
      exact mem_extendPlan.mpr (.inr (hextends hor).2)
    · rename_i hor
      simp only [Bool.or_eq_true, decide_eq_true_eq, not_or, not_not] at hor
      exact hor.2
  · split at h
    · cases h
    · rename_i hstatus
      split at h
      · rename_i hpass
        obtain rfl := Except.ok.inj h
        exact ⟨none, .revision hpass.1 hstatus hpass.2.1 hpass.2.2, rfl⟩
      · cases h
    · rename_i hstatus
      split at h
      · cases h
      · rename_i hlimit
        obtain rfl := Except.ok.inj h
        refine ⟨_, .again hstatus fun l hl => ?_, rfl⟩
        rw [hl] at hlimit
        simpa using hlimit
    · rename_i hstatus
      split at h
      · rename_i hbefore
        obtain rfl := Except.ok.inj h
        exact ⟨_, .fresh hstatus hbefore, rfl⟩
      · cases h

/-- An accepted `complete`. -/
structure Completed (s : State) (n : Stage) (gate : Bool) (u : State) : Prop where
  running : s.phase.isTerminal = false
  status : s.stageStatus n = some .inProgress
  passed : gate = true
  next : ∃ phase stage artifact,
    (phase = .done ∧
        (∀ m ∈ s.stagePlan,
          Function.update s.stageStatus n (some .completed) m = some .completed) ∨
      phase.isTerminal = false) ∧
    u = { s with
      stageStatus := Function.update s.stageStatus n (some .completed)
      phase := phase
      currentStage := stage
      finalArtifact := artifact }

theorem stagePhase_isTerminal (m : Stage) : (stagePhase m).isTerminal = false := by
  revert m
  decide

theorem complete_ok {gate : Bool} {files : Files} (h : s.complete n gate files = .ok u) :
    Completed s n gate u := by
  rw [complete] at h
  split at h
  · cases h
  rename_i hterm
  split at h
  · rename_i hstatus
    split at h
    · rename_i hgate
      refine ⟨Bool.eq_false_iff.mpr hterm, hstatus, hgate, ?_⟩
      simp only at h
      split at h
      · rename_i hnone
        obtain rfl := Except.ok.inj h
        refine ⟨.done, s.currentStage, _, .inl ⟨rfl, fun m hm => ?_⟩, rfl⟩
        simpa using List.find?_eq_none.mp hnone m hm
      · rename_i m hm
        obtain rfl := Except.ok.inj h
        exact ⟨stagePhase m, m, s.finalArtifact, .inr (stagePhase_isTerminal m), rfl⟩
    · cases h
  · cases h
  · cases h

/-- An accepted `fail`: a code, a revision of the design, or a counted failure. -/
inductive Failed (s : State) (n : Stage) (u : State) : Bool → Option (Option BlockedCode) → Prop
  | blocked (r : Bool) (code : BlockedCode)
      (heq : u = { s with
        phase := .failed, failureReason := some code, lastFailureReason := some (.blocked code) }) :
      Failed s n u r (some (some code))
  | revised (hrunning : s.phase.isTerminal = false) (hstatus : s.stageStatus n ≠ none)
      (heq : u = s.reviseDesign n) : Failed s n u true none
  | counted (failType : FailType) (files : Files) (hrunning : s.phase.isTerminal = false)
      (hstage : n ≠ 2)
      (hstatus : s.stageStatus n = some .inProgress ∨ s.stageStatus n = some .failed)
      (heq : u = s.countFailure n failType files) : Failed s n u false none

theorem fail_ok {r : Bool} {failType : FailType} {code : Option (Option BlockedCode)} {files : Files}
    (h : s.fail n r failType code files = .ok u) : Failed s n u r code := by
  rw [fail.eq_def] at h
  split at h
  · cases h
  · obtain rfl := Except.ok.inj h
    exact .blocked r _ rfl
  · split at h
    · cases h
    rename_i hterm
    have hrunning := Bool.eq_false_iff.mpr hterm
    split at h
    · rename_i hr
      split at h
      · cases h
      · rename_i hstatus
        obtain rfl := Except.ok.inj h
        rw [hr]
        exact .revised hrunning hstatus rfl
    · rename_i hr
      rw [Bool.eq_false_iff.mpr hr]
      split at h
      · cases h
      rename_i hstage
      split at h
      · cases h
      · cases h
      · rename_i hcompleted hnone
        obtain rfl := Except.ok.inj h
        refine .counted failType files hrunning hstage ?_ rfl
        rcases hstatus : s.stageStatus n with _ | (_ | _ | _)
        · exact absurd hstatus hnone
        · exact .inl rfl
        · exact absurd hstatus hcompleted
        · exact .inr rfl

end State

end TileLangNpuir.Statectl
