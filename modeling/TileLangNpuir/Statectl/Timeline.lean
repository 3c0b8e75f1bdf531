import TileLangNpuir.Statectl.Machine

/-!
# The timeline

Every accepted command of `statectl` writes the state file and appends one event to
`.task_timeline.jsonl`. The events are enough to rebuild the stage state: `replay`
reads an event without looking at the command, and follows the state file through
every run.
-/

namespace TileLangNpuir.Statectl

/-- The name of a code of `BLOCKED_CODES`. -/
def BlockedCode.name : BlockedCode → String
  | design => "BLOCKED_DESIGN"
  | impl => "BLOCKED_IMPL"
  | accuracy => "BLOCKED_ACCURACY"
  | scaffold => "BLOCKED_SCAFFOLD"
  | integration => "BLOCKED_INTEGRATION"
  | environment => "BLOCKED_ENVIRONMENT"
  | spec => "BLOCKED_SPEC"

/-- A string of `BLOCKED_CODES`. -/
def BlockedCode.ofName (name : String) : Option BlockedCode :=
  [design, impl, accuracy, scaffold, integration, environment, spec].find? (·.name = name)

/-- The name of a `--fail-type`. -/
def FailType.name : FailType → String
  | runtime => "runtime"
  | precision => "precision"

/-- `--reason design_revision`. -/
def designRevisionReason : String := "design_revision"

/-- An event of `.task_timeline.jsonl`, by its action. Times, durations and labels are
left out. -/
inductive Event : Type where
  | init (phaseAfter : Phase) (scenario : Scenario) (migrationMode : Option MigrationMode)
      (stagePlan : List Stage)
  | start (stage : Stage) (phaseBefore phaseAfter : Phase)
  | complete (stage : Stage) (phaseBefore phaseAfter : Phase) (verdict : String)
  /-- the counters are keys that only some failures write -/
  | fail (stage : Stage) (phaseBefore phaseAfter : Phase) (verdict reason : String)
      (retryCount stageRetryCount : Option ℕ)
  | set (phaseAfter : Phase)
  | snapshot (phaseAfter : Phase)
  | verify (phaseAfter : Phase) (verdict : String)
  deriving DecidableEq

/-- The arguments of `set` that can be refused, and the fields that are read back. -/
structure SetArgs : Type where
  perfTuning : Option Bool
  finalArtifact : Option String
  /-- `--perf-feedback-action`: whether `perf_feedback.md` exists -/
  perfFeedback : Option Bool
  perfIterationCount : Option ℤ
  perfIterationNoImprove : Option ℤ
  /-- `--budget-json`: whether it is an object of positive numbers under known keys, or
  `null` -/
  budget : Option Bool

/-- The `errors` of `cmd_set` are not empty. -/
def SetArgs.refused (a : SetArgs) : Bool :=
  a.perfFeedback = some false || a.perfIterationCount.any (· < 0) ||
    a.perfIterationNoImprove.any (· < 0) || a.budget = some false

/-- A command line, with what the command finds on disk. -/
inductive Command : Type where
  | init (args : InitArgs)
  | start (stage : Stage) (extend : Bool)
  | complete (stage : Stage) (gate : Bool) (files : Files)
  | fail (stage : Stage) (reason : Option String) (failType : FailType)
      (blockedCode : Option String) (files : Files)
  | set (args : SetArgs)
  | snapshot
  /-- `ok` is the outcome of the checks -/
  | verify (ok : Bool)

/-- Python's truth of an optional string. -/
def truthy (text : Option String) : Option String := text.filter (· ≠ "")

/-- The command of the state machine, where it is one. -/
def Command.toCmd : Command → Option Cmd
  | init args => some (.init args)
  | start stage extend => some (.start stage extend)
  | complete stage gate files => some (.complete stage gate files)
  | fail stage reason failType blockedCode files =>
    some (.fail stage (reason = some designRevisionReason) failType
      ((truthy blockedCode).map BlockedCode.ofName) files)
  | set args => if args.refused then none else some (.set args.perfTuning args.finalArtifact)
  | snapshot => none
  | verify _ => none

/-- The two files. -/
structure Disk : Type where
  state : Option State
  timeline : List Event

/-- The event of an accepted `fail`; `s` and `u` are the states before and after. -/
def failEvent (s u : State) (n : Stage) (reason : Option String) (failType : FailType)
    (blockedCode : Option String) : Event :=
  match truthy blockedCode with
  | some code => .fail n s.phase u.phase code code none none
  | none =>
    if reason = some designRevisionReason then
      .fail n s.phase u.phase designRevisionReason designRevisionReason (some u.retryCount) none
    else
      let text := (truthy reason).getD failType.name
      .fail n s.phase u.phase text text none (some (u.stageRetryCount n))

/-- The event of an accepted command. -/
def Command.event (s u : State) : Command → Event
  | init args => .init u.phase u.scenario args.migrationMode u.stagePlan
  | start stage _ => .start stage s.phase u.phase
  | complete stage _ _ => .complete stage s.phase u.phase "pass"
  | fail stage reason failType blockedCode _ => failEvent s u stage reason failType blockedCode
  | set _ => .set u.phase
  | snapshot => .snapshot u.phase
  | verify _ => .verify u.phase "ok"

namespace Disk

/-- `ctx.write()` and `ctx.timeline(...)`. -/
def record (d : Disk) (u : State) (e : Event) : Disk := ⟨some u, d.timeline ++ [e]⟩

/-- One command: its exit code and the files afterwards. -/
def exec (d : Disk) (c : Command) : ℕ × Disk :=
  match c, d.state with
  | .init a, none =>
    match Statectl.init a with
    | .ok u => (0, d.record u (c.event u u))
    | .error _ => (1, d)
  | _, none => (1, d)
  | .snapshot, some s => (0, d.record s (c.event s s))
  -- the state file is not written, but the event is
  | .verify ok, some s =>
    if ok then (0, { d with timeline := d.timeline ++ [c.event s s] }) else (1, d)
  | c, some s =>
    match c.toCmd with
    | none => (1, d)
    | some cmd =>
      match s.step cmd with
      | .ok u => (0, d.record u (c.event s u))
      | .error _ => (1, d)

/-- A run of commands. -/
def run (cs : List Command) : Disk := cs.foldl (fun d c => (d.exec c).2) ⟨none, []⟩

end Disk

/-! ## Replaying the timeline -/

/-- The stage state. -/
structure StageState : Type where
  stagePlan : List Stage
  stageStatus : Stage → Option Status
  phase : Phase
  retryCount : ℕ
  stageRetryCount : Stage → ℕ

/-- The stage state of a state file. -/
def State.stageState (s : State) : StageState :=
  ⟨s.stagePlan, s.stageStatus, s.phase, s.retryCount, s.stageRetryCount⟩

/-- What an event says about the stage state. -/
def StageState.replay (s : StageState) : Event → StageState
  | .init phase _ _ plan => ⟨plan, fun _ => none, phase, 0, fun _ => 0⟩
  | .start n phaseBefore phaseAfter =>
    -- an accepted start outside the plan, or of a finished run, has extended the plan
    { s with
      stagePlan :=
        if phaseBefore.isTerminal || n ∉ s.stagePlan then extendPlan s.stagePlan else s.stagePlan
      stageStatus := Function.update s.stageStatus n (some .inProgress)
      phase := phaseAfter }
  | .complete n _ phaseAfter _ =>
    { s with
      stageStatus := Function.update s.stageStatus n (some .completed)
      phase := phaseAfter }
  | .fail n _ phaseAfter _ _ (some count) _ =>
    { s with
      stageStatus := fun m =>
        if m ∈ s.stagePlan ∧ 1 < m then none
        else if m = n then some .failed
        else s.stageStatus m
      stageRetryCount := fun m => if m ∈ s.stagePlan ∧ 1 < m then 0 else s.stageRetryCount m
      retryCount := count
      phase := phaseAfter }
  | .fail n _ phaseAfter _ _ none (some count) =>
    { s with
      stageStatus := Function.update s.stageStatus n (some .failed)
      stageRetryCount := Function.update s.stageRetryCount n count
      phase := phaseAfter }
  | .fail _ _ phaseAfter _ _ none none => { s with phase := phaseAfter }
  | .set _ => s
  | .snapshot _ => s
  | .verify _ _ => s

/-- Before the first event there is no state. -/
def StageState.empty : StageState := ⟨[], fun _ => none, .scaffold, 0, fun _ => 0⟩

/-- The stage state that a timeline tells of. -/
def rebuild : List Event → Option StageState
  | [] => none
  | e :: es => some ((e :: es).foldl StageState.replay .empty)

theorem rebuild_append (es : List Event) (e : Event) :
    rebuild (es ++ [e]) = some (((rebuild es).getD .empty).replay e) := by
  cases es with
  | nil => rfl
  | cons e' es => simp only [List.cons_append, rebuild, List.foldl_cons, List.foldl_append,
      List.foldl_nil, Option.getD_some]

/-- The event of an accepted `init` tells the whole stage state. -/
theorem init_replay {a : InitArgs} {u : State} (h : init a = .ok u) (s : StageState) :
    u.stageState = s.replay ((Command.init a).event u u) := by
  obtain ⟨first, rest, rfl⟩ := init_ok h
  rfl

theorem fail_replay {s u : State} {n : Stage} {reason : Option String} {failType : FailType}
    {blockedCode : Option String} {files : Files}
    (h : s.fail n (reason = some designRevisionReason) failType
      ((truthy blockedCode).map BlockedCode.ofName) files = .ok u) :
    u.stageState = s.stageState.replay (failEvent s u n reason failType blockedCode) := by
  have hfailed := State.fail_ok h
  rw [failEvent]
  revert hfailed
  generalize truthy blockedCode = code
  intro hfailed
  rcases code with _ | code
  · -- no code: a revision of the design or a counted failure
    by_cases hreason : reason = some designRevisionReason
    · simp only [hreason, if_true]
      simp only [hreason, decide_true, Option.map_none] at hfailed
      obtain _ | ⟨_, _, rfl⟩ | _ := hfailed
      simp only [State.stageState, StageState.replay, State.reviseDesign_stagePlan,
        State.reviseDesign_retryCount]
      congr 1
      · funext m
        exact State.reviseDesign_stageStatus s n m
      · funext m
        exact State.reviseDesign_stageRetryCount s n m
    · simp only [hreason, if_false]
      simp only [hreason, decide_false, Option.map_none] at hfailed
      obtain _ | _ | ⟨failType', files', _, _, _, rfl⟩ := hfailed
      simp only [State.stageState, StageState.replay, State.countFailure_stagePlan,
        State.countFailure_stageStatus, State.countFailure_stageRetryCount,
        State.countFailure_retryCount, Function.update_self]
  · simp only [Option.map_some] at hfailed
    generalize BlockedCode.ofName code = parsed at hfailed
    generalize decide (reason = some designRevisionReason) = revision at hfailed
    obtain ⟨_, _, rfl⟩ | _ | _ := hfailed
    rfl

/-- The event of an accepted command tells what it did to the stage state. -/
theorem step_replay {s u : State} {c : Command} {cmd : Cmd} (hcmd : c.toCmd = some cmd)
    (h : s.step cmd = .ok u) : u.stageState = s.stageState.replay (c.event s u) := by
  cases c with
  | init a =>
    obtain rfl := Option.some.inj hcmd
    cases h
  | start n extend =>
    obtain rfl := Option.some.inj hcmd
    obtain ⟨last, -, rfl⟩ := (State.start_ok h).entered
    rfl
  | complete n gate files =>
    obtain rfl := Option.some.inj hcmd
    obtain ⟨phase, stage, artifact, -, rfl⟩ := (State.complete_ok h).next
    rfl
  | fail n reason failType blockedCode files =>
    obtain rfl := Option.some.inj hcmd
    exact fail_replay h
  | set a =>
    rw [Command.toCmd] at hcmd
    split at hcmd
    · cases hcmd
    · obtain rfl := Option.some.inj hcmd
      obtain rfl := Except.ok.inj h
      rfl
  | snapshot => cases hcmd
  | verify ok => cases hcmd

namespace Disk

/-- The timeline tells the stage state. -/
def Told (d : Disk) : Prop := d.state.map State.stageState = rebuild d.timeline

theorem Told.record {d : Disk} {s u : State} {e : Event} (h : d.Told) (hs : d.state = some s)
    (he : u.stageState = s.stageState.replay e) : (d.record u e).Told := by
  rw [Told, Disk.record, rebuild_append, ← h, hs]
  exact congrArg some he

/-- A command keeps the timeline telling the stage state. -/
theorem Told.exec {d : Disk} (h : d.Told) (c : Command) : (d.exec c).2.Told := by
  rcases hs : d.state with _ | s
  · cases c with
    | init a =>
      simp only [Disk.exec, hs]
      split
      · rename_i u hu
        rw [Told, Disk.record, rebuild_append]
        exact congrArg some (init_replay hu _)
      · exact h
    | _ =>
      simp only [Disk.exec, hs]
      exact h
  · have hstep {c : Command} {cmd : Cmd} (hcmd : c.toCmd = some cmd) :
        (match s.step cmd with
          | .ok u => (0, d.record u (c.event s u))
          | .error _ => (1, d) : ℕ × Disk).2.Told := by
      split
      · rename_i u hu
        exact h.record hs (step_replay hcmd hu)
      · exact h
    cases c with
    | snapshot =>
      simp only [Disk.exec, hs]
      exact h.record hs rfl
    | verify ok =>
      simp only [Disk.exec, hs]
      split
      · rw [Told, rebuild_append, ← h, hs]
        rfl
      · exact h
    | _ =>
      simp only [Disk.exec, hs]
      split
      · exact h
      · rename_i cmd hcmd
        exact hstep hcmd

/-- Every run keeps the timeline telling the stage state. -/
theorem told_run (cs : List Command) : (run cs).Told := by
  suffices hall : ∀ d : Disk, d.Told → (cs.foldl (fun d c => (d.exec c).2) d).Told from
    hall ⟨none, []⟩ rfl
  induction cs with
  | nil => exact fun _ h => h
  | cons c cs ih => exact fun d h => ih _ (h.exec c)

/-- A command that exits with code 1 has written nothing. -/
theorem exec_of_exit_one {d : Disk} {c : Command} (h : (d.exec c).1 = 1) : (d.exec c).2 = d := by
  revert h
  unfold Disk.exec
  split
  · split
    · exact nofun
    · exact fun _ => rfl
  · exact fun _ => rfl
  · exact nofun
  · split
    · exact nofun
    · exact fun _ => rfl
  · split
    · exact fun _ => rfl
    · split
      · exact nofun
      · exact fun _ => rfl

/-- The stage state is a function of the timeline, in every run, and a command that
exits with code 1 leaves both files alone. -/
theorem stageState_of_timeline (cs : List Command) :
    (run cs).state.map State.stageState = rebuild (run cs).timeline ∧
      (∀ cs' : List Command, (run cs').timeline = (run cs).timeline →
        (run cs').state.map State.stageState = (run cs).state.map State.stageState) ∧
      ∀ c : Command, ((run cs).exec c).1 = 1 → ((run cs).exec c).2 = run cs := by
  refine ⟨told_run cs, fun cs' heq => ?_, fun c => exec_of_exit_one⟩
  have h := told_run cs
  have h' := told_run cs'
  rw [Told] at h h'
  rw [h', h, heq]

/-- `init`, then `start 1`. -/
def startedDesign : List Command := [.init ⟨.newOp, none, 3, none⟩, .start 1 false]

/-- Starting the design a second time exits with code 1 and writes nothing. -/
theorem startedDesign_again :
    ((run startedDesign).exec (.start 1 false)).1 = 1 ∧
      ((run startedDesign).exec (.start 1 false)).2 = run startedDesign :=
  ⟨by decide, (stageState_of_timeline startedDesign).2.2 _ (by decide)⟩

end Disk

end TileLangNpuir.Statectl
