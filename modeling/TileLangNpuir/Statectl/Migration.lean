import TileLangNpuir.Lib.Runs

/-!
# The migration aggregate

The commands `migration init`, `func`, `phase` and `integrate` of `statectl`, on
`.migration_state.json`. A recorded failure of the integration counts an attempt but
leaves `integration.status` as it is, so a pass that came before it still opens the
way to `DONE`.
-/

namespace TileLangNpuir.Statectl.Migration

/-- `MIG_PHASES`. -/
inductive Phase : Type where
  | scaffold | devLoop | integrate | done | failed
  deriving DecidableEq

/-- The index in `order`. -/
def Phase.index : Phase → Option ℕ
  | scaffold => some 0
  | devLoop => some 1
  | integrate => some 2
  | done => some 3
  | failed => none

/-- `FUNC_STATUSES`. -/
inductive FuncStatus : Type where
  | pending | inProgress | done | failed
  deriving DecidableEq

/-- `failure_reason`. -/
inductive Reason : Type where
  | given (text : String)
  | blockedIntegration
  deriving DecidableEq

/-- The aggregate state file. -/
structure State : Type where
  phase : Phase
  functions : List (String × FuncStatus)
  attempts : ℕ
  /-- `integration.status` is `pass` -/
  passed : Bool
  failureReason : Option Reason
  deriving DecidableEq

/-- The codes of rejected commands. -/
inductive ErrorCode : Type where
  | exists | missing | phaseOrder | funcUnknown | terminal | value | phasePrecond
  deriving DecidableEq

/-- Commands. -/
inductive Cmd : Type where
  /-- `--functions`, `--phase` -/
  | init (functions : List String) (phase : Phase)
  | func (name : String) (status : FuncStatus)
  | phase (target : Phase) (reason : Option String)
  | integrate (pass : Bool)
  deriving DecidableEq

/-- `cmd_migration_init`, where there is no state file. -/
def init (functions : List String) (phase : Phase) : Except ErrorCode State :=
  if phase = .scaffold ∨ phase = .devLoop then
    .ok ⟨phase, functions.eraseDups.map fun f => (f, .pending), 0, false, none⟩
  else .error .phaseOrder

namespace State

/-- `cmd_migration_func`. -/
def func (s : State) (name : String) (status : FuncStatus) : Except ErrorCode State :=
  if name ∉ s.functions.map Prod.fst then .error .funcUnknown
  else if s.phase ≠ .scaffold ∧ s.phase ≠ .devLoop then .error .phaseOrder
  else .ok { s with functions := s.functions.map fun f => if f.1 = name then (f.1, status) else f }

/-- Every function has status `done`. -/
def AllDone (s : State) : Prop := ∀ f ∈ s.functions, f.2 = .done

instance (s : State) : Decidable s.AllDone := inferInstanceAs (Decidable (∀ _ ∈ _, _))

/-- The order of the phases is kept by going to `target`. -/
def advances (s : State) (target : Phase) : Bool :=
  match target.index, s.phase.index with
  | some t, some c => c < t
  | _, _ => false

/-- `cmd_migration_phase`. -/
def moveTo (s : State) (target : Phase) (reason : Option String) : Except ErrorCode State :=
  if s.phase = .done ∨ s.phase = .failed then .error .terminal
  else match target with
    | .failed =>
      match reason.filter (· ≠ "") with
      | some text => .ok { s with phase := .failed, failureReason := some (.given text) }
      | none => .error .value
    | target =>
      if !s.advances target then .error .phaseOrder
      else if target = .integrate ∧ ¬ s.AllDone then .error .phasePrecond
      else if target = .done ∧ s.passed = false then .error .phasePrecond
      else .ok { s with phase := target }

/-- `cmd_migration_integrate`. -/
def integrate (s : State) (pass : Bool) : Except ErrorCode State :=
  if s.phase ≠ .integrate then .error .phaseOrder
  else if pass then .ok { s with passed := true }
  else
    let s := { s with attempts := s.attempts + 1 }
    if 2 < s.attempts then
      .ok { s with phase := .failed, failureReason := some .blockedIntegration }
    else .ok s

end State

/-- One command on the directory of an operator. -/
def step (s : Option State) (c : Cmd) : Except ErrorCode (Option State) :=
  match c, s with
  | .init functions phase, none => (init functions phase).map some
  | .init _ _, some _ => .error .exists
  | _, none => .error .missing
  | .func name status, some s => (s.func name status).map some
  | .phase target reason, some s => (s.moveTo target reason).map some
  | .integrate pass, some s => (s.integrate pass).map some

/-! ## What an accepted command does -/

/-- The accepted commands and the state file they write. -/
inductive Accepted : Option State → Cmd → State → Prop
  | init {functions : List String} {phase : Phase} (hphase : phase = .scaffold ∨ phase = .devLoop) :
      Accepted none (.init functions phase)
        ⟨phase, functions.eraseDups.map fun f => (f, .pending), 0, false, none⟩
  | func {s : State} {name : String} {status : FuncStatus}
      (hphase : s.phase = .scaffold ∨ s.phase = .devLoop) :
      Accepted (some s) (.func name status)
        { s with functions := s.functions.map fun f => if f.1 = name then (f.1, status) else f }
  | giveUp {s : State} {reason : Option String} {text : String} (hrunning : s.phase ≠ .done) :
      Accepted (some s) (.phase .failed reason)
        { s with phase := .failed, failureReason := some (.given text) }
  | advance {s : State} {target : Phase} {reason : Option String}
      (hadvances : s.advances target = true) (hdone : target = .integrate → s.AllDone)
      (hpassed : target = .done → s.passed = true) :
      Accepted (some s) (.phase target reason) { s with phase := target }
  | pass {s : State} (hphase : s.phase = .integrate) :
      Accepted (some s) (.integrate true) { s with passed := true }
  | fail {s : State} (hphase : s.phase = .integrate) (hfew : s.attempts + 1 ≤ 2) :
      Accepted (some s) (.integrate false) { s with attempts := s.attempts + 1 }
  | block {s : State} (hphase : s.phase = .integrate) :
      Accepted (some s) (.integrate false)
        { s with
          attempts := s.attempts + 1
          phase := .failed
          failureReason := some .blockedIntegration }

theorem moveTo_accepted {s u : State} {target : Phase} {reason : Option String}
    (h : s.moveTo target reason = .ok u) : Accepted (some s) (.phase target reason) u := by
  rw [State.moveTo.eq_def] at h
  split at h
  · cases h
  rename_i hrunning
  split at h
  · split at h
    · obtain rfl := Except.ok.inj h
      exact .giveUp fun hdone => hrunning (.inl hdone)
    · cases h
  · split at h
    · cases h
    rename_i hadvances
    split at h
    · cases h
    rename_i hdone
    split at h
    · cases h
    rename_i hpassed
    obtain rfl := Except.ok.inj h
    refine .advance (by simpa using hadvances) (fun ht => ?_) fun ht => ?_
    · by_contra hnot
      exact hdone ⟨ht, hnot⟩
    · by_contra hnot
      exact hpassed ⟨ht, Bool.eq_false_iff.mpr hnot⟩

theorem integrate_accepted {s u : State} {pass : Bool} (h : s.integrate pass = .ok u) :
    Accepted (some s) (.integrate pass) u := by
  rw [State.integrate] at h
  split at h
  · cases h
  rename_i hphase
  replace hphase := not_not.mp hphase
  cases pass with
  | true =>
    obtain rfl := Except.ok.inj h
    exact .pass hphase
  | false =>
    simp only [Bool.false_eq_true, if_false] at h
    split at h
    · obtain rfl := Except.ok.inj h
      exact .block hphase
    · rename_i hfew
      obtain rfl := Except.ok.inj h
      exact .fail hphase (by omega)

theorem func_accepted {s u : State} {name : String} {status : FuncStatus}
    (h : s.func name status = .ok u) : Accepted (some s) (.func name status) u := by
  rw [State.func] at h
  split at h
  · cases h
  split at h
  · cases h
  rename_i hphase
  obtain rfl := Except.ok.inj h
  refine .func ?_
  by_contra hnot
  exact hphase (not_or.mp hnot)

/-- What an accepted command does. -/
theorem step_accepted {s u : Option State} {c : Cmd} (h : step s c = .ok u) :
    ∃ t, u = some t ∧ Accepted s c t := by
  have hmap {e : Except ErrorCode State} (he : e.map some = .ok u) : ∃ t, u = some t ∧ e = .ok t := by
    cases e with
    | error _ => cases he
    | ok t => exact ⟨t, (Except.ok.inj he).symm, rfl⟩
  cases s with
  | none =>
    cases c with
    | init functions phase =>
      obtain ⟨t, rfl, ht⟩ := hmap h
      rw [init] at ht
      split at ht
      · rename_i hphase
        obtain rfl := Except.ok.inj ht
        exact ⟨_, rfl, .init hphase⟩
      · cases ht
    | _ => cases h
  | some s =>
    cases c with
    | init functions phase => cases h
    | func name status =>
      obtain ⟨t, rfl, ht⟩ := hmap h
      exact ⟨t, rfl, func_accepted ht⟩
    | phase target reason =>
      obtain ⟨t, rfl, ht⟩ := hmap h
      exact ⟨t, rfl, moveTo_accepted ht⟩
    | integrate pass =>
      obtain ⟨t, rfl, ht⟩ := hmap h
      exact ⟨t, rfl, integrate_accepted ht⟩

/-! ## Phases -/

/-- `FAILED` comes after every phase and before none. -/
def Phase.NotAfter (p q : Phase) : Prop :=
  q = .failed ∨ ∃ i j, p.index = some i ∧ q.index = some j ∧ i ≤ j

theorem Phase.NotAfter.refl (p : Phase) : p.NotAfter p := by
  cases p with
  | failed => exact .inl rfl
  | _ => exact .inr ⟨_, _, rfl, rfl, Nat.le_refl _⟩

theorem Phase.NotAfter.trans {p q r : Phase} (h : p.NotAfter q) (h' : q.NotAfter r) :
    p.NotAfter r := by
  rcases h' with rfl | ⟨i, j, hi, hj, hij⟩
  · exact .inl rfl
  · rcases h with rfl | ⟨k, l, hk, hl, hkl⟩
    · cases hi
    · obtain rfl : l = i := by
        rw [hl] at hi
        exact Option.some.inj hi
      exact .inr ⟨k, j, hk, hj, Nat.le_trans hkl hij⟩

theorem Phase.NotAfter.failed {p : Phase} (h : Phase.failed.NotAfter p) : p = .failed := by
  rcases h with rfl | ⟨i, j, hi, -, -⟩
  · rfl
  · cases hi

/-- One command does not take the phase back. -/
theorem Accepted.notAfter {s u : State} {c : Cmd} (h : Accepted (some s) c u) :
    s.phase.NotAfter u.phase := by
  cases h with
  | func _ | pass _ | fail _ _ => exact .refl _
  | giveUp _ | block _ => exact .inl rfl
  | @advance s target reason hadvances _ _ =>
    rw [State.advances] at hadvances
    split at hadvances
    · rename_i t k ht hk
      exact .inr ⟨k, t, hk, ht, Nat.le_of_lt (by simpa using hadvances)⟩
    · cases hadvances

/-- No run takes the phase back. -/
theorem run_notAfter {P : List Cmd → Option State → Cmd → Prop} {s u : State} {cs : List Cmd}
    (h : Run step P (some s) cs (some u)) : s.phase.NotAfter u.phase := by
  have hall := Run.invariant
    (I := fun _ t => ∃ u, t = some u ∧ s.phase.NotAfter u.phase) ⟨s, rfl, .refl _⟩ (by
      rintro cs t c v ⟨u, rfl, hu⟩ - hok
      obtain ⟨w, rfl, hw⟩ := step_accepted hok
      exact ⟨w, rfl, hu.trans hw.notAfter⟩) h
  obtain ⟨v, hv, hphase⟩ := hall
  obtain rfl := Option.some.inj hv
  exact hphase

/-! ## Integrations -/

/-- The result of an `integrate`. -/
def Cmd.result : Cmd → Option Bool
  | .integrate pass => some pass
  | _ => none

/-- The most recent `integrate` that was recorded. -/
def lastIntegrate (cs : List Cmd) : Option Bool := (cs.filterMap Cmd.result).getLast?

/-- The failed integrations that were recorded. -/
def integrationFails (cs : List Cmd) : ℕ := cs.count (.integrate false)

/-- A failure of the integration is recorded only while no pass has been. -/
def FailsBeforePass (_ : List Cmd) (s : Option State) (c : Cmd) : Prop :=
  c = .integrate false → ∀ t, s = some t → t.passed = false

instance (h : List Cmd) (s : Option State) (c : Cmd) : Decidable (FailsBeforePass h s c) :=
  match s with
  | none => .isTrue fun _ _ ht => nomatch ht
  | some t => decidable_of_iff (c = .integrate false → t.passed = false)
      ⟨fun h hc _ ht => Option.some.inj ht ▸ h hc, fun h hc => h hc t rfl⟩

/-- What holds of the state file after the accepted commands `cs`. -/
structure Inv (cs : List Cmd) (s : State) : Prop where
  passed : s.passed = true → s.phase = .integrate ∨ s.phase = .done ∨ s.phase = .failed
  allDone : s.phase = .integrate ∨ s.phase = .done → s.AllDone
  done : s.phase = .done → s.passed = true
  attempts : s.attempts = integrationFails cs
  blocked : 3 ≤ s.attempts → s.phase = .failed

/-- One command keeps the invariant. -/
theorem Accepted.inv {cs : List Cmd} {s : Option State} {c : Cmd} {u : State}
    (h : Accepted s c u) (hnone : s = none → cs = []) (hinv : ∀ t, s = some t → Inv cs t) :
    Inv (cs ++ [c]) u := by
  cases h with
  | init hphase =>
    obtain rfl := hnone rfl
    refine ⟨nofun, fun hp => ?_, fun hp => ?_, rfl, nofun⟩
    · rcases hphase with rfl | rfl <;> simp at hp
    · rcases hphase with rfl | rfl <;> cases hp
  | @func s name status hphase =>
    obtain ⟨hpassed, -, hdone, hattempts, hblocked⟩ := hinv s rfl
    refine ⟨hpassed, fun hp => ?_, hdone, ?_, hblocked⟩
    · rcases hphase with hs | hs <;> simp [hs] at hp
    · simp [integrationFails, hattempts]
  | @giveUp s reason text hrunning =>
    obtain ⟨-, -, -, hattempts, -⟩ := hinv s rfl
    refine ⟨fun _ => .inr (.inr rfl), fun hp => ?_, nofun, ?_, fun _ => rfl⟩
    · simp at hp
    · simp [integrationFails, hattempts]
  | @advance s target reason hadvances hdone hpassed =>
    obtain ⟨hp, hall, -, hattempts, hblocked⟩ := hinv s rfl
    have hfew : ¬ 3 ≤ s.attempts := by
      intro hle
      rw [State.advances, hblocked hle] at hadvances
      cases target <;> cases hadvances
    -- an aggregate that has passed is in `INTEGRATE`, so it can only go to `DONE`
    have hfrom : s.passed = true → s.phase = .integrate ∧ target = .done := by
      intro hs
      rcases hp hs with hs | hs | hs <;> rw [State.advances, hs] at hadvances
      · refine ⟨hs, ?_⟩
        cases target <;> simp [Phase.index] at hadvances ⊢
      · cases target <;> simp [Phase.index] at hadvances
      · cases target <;> cases hadvances
    refine ⟨fun hs => .inr (.inl (hfrom hs).2), ?_, fun ht => hpassed ht, ?_,
      fun hle => absurd hle hfew⟩
    · rintro (ht | ht)
      · exact hdone ht
      · exact hall (.inl (hfrom (hpassed ht)).1)
    · simp [integrationFails, hattempts]
  | @pass s hphase =>
    obtain ⟨-, hall, -, hattempts, hblocked⟩ := hinv s rfl
    refine ⟨fun _ => .inl hphase, hall, fun _ => rfl, ?_, hblocked⟩
    simp [integrationFails, hattempts]
  | @fail s hphase hfew =>
    obtain ⟨hp, hall, hdone, hattempts, -⟩ := hinv s rfl
    refine ⟨hp, hall, hdone, ?_, fun hle => ?_⟩
    · simp [integrationFails, hattempts]
    · simp only at hle
      omega
  | @block s hphase =>
    obtain ⟨-, -, -, hattempts, -⟩ := hinv s rfl
    refine ⟨fun _ => .inr (.inr rfl), fun hp => ?_, nofun, ?_, fun _ => rfl⟩
    · simp at hp
    · simp [integrationFails, hattempts]

/-- The invariant of every run. -/
theorem run_inv {P : List Cmd → Option State → Cmd → Prop} {cs : List Cmd} {t : State}
    (h : Run step P none cs (some t)) : Inv cs t := by
  suffices hall : (some t = none → cs = []) ∧ ∀ s, some t = some s → Inv cs s from hall.2 t rfl
  have hinit : (none = (none : Option State) → ([] : List Cmd) = []) ∧
      ∀ s, none = some s → Inv [] s := ⟨fun _ => rfl, nofun⟩
  refine Run.invariant (I := fun cs t => (t = none → cs = []) ∧ ∀ s, t = some s → Inv cs s)
    hinit ?_ h
  rintro cs t c v ⟨hnone, hinv⟩ - hok
  obtain ⟨u, rfl, hu⟩ := step_accepted hok
  refine ⟨nofun, fun w hw => ?_⟩
  obtain rfl := Option.some.inj hw
  exact hu.inv hnone hinv

/-- Where no failure follows a pass, a pass stays the most recent integration. -/
theorem lastIntegrate_of_passed {cs : List Cmd} {t : State}
    (h : Run step FailsBeforePass none cs (some t)) (hpassed : t.passed = true) :
    lastIntegrate cs = some true := by
  suffices hall : ∀ s, some t = some s → s.passed = true → lastIntegrate cs = some true from
    hall t rfl hpassed
  refine Run.invariant
    (I := fun cs t => ∀ s, t = some s → s.passed = true → lastIntegrate cs = some true) nofun ?_ h
  intro cs t c v hinv hP hok w hw hpassed
  obtain ⟨u, rfl, hu⟩ := step_accepted hok
  obtain rfl := Option.some.inj hw
  cases hu with
  | init _ => cases hpassed
  | @func s name status _ | @giveUp s reason text _ | @advance s target reason _ _ _ =>
    simpa [lastIntegrate, Cmd.result] using hinv s rfl hpassed
  | pass _ => simp [lastIntegrate, Cmd.result]
  | @fail s _ _ | @block s _ => simp [hP rfl s rfl] at hpassed

/-- What the aggregate is for: it is done only after a valid integration, it never goes
back, and the third failed integration ends it. -/
structure Valid (cs : List Cmd) (t : State) : Prop where
  done : t.phase = .done → t.AllDone ∧ lastIntegrate cs = some true
  forward : ∀ ds u, AnyRun step (some t) ds (some u) → t.phase.NotAfter u.phase
  blocked : 3 ≤ integrationFails cs → t.phase = .failed ∧
    ∀ ds u, AnyRun step (some t) ds (some u) → u.phase = .failed

/-- In every run in which no failed integration is recorded after a pass, every state
file is valid. -/
theorem run_valid {cs : List Cmd} {t : State} (h : Run step FailsBeforePass none cs (some t)) :
    Valid cs t := by
  have hinv := run_inv h
  refine ⟨fun hdone => ⟨hinv.allDone (.inr hdone), ?_⟩, fun ds u hrun => run_notAfter hrun,
    fun hfails => ?_⟩
  · exact lastIntegrate_of_passed h (hinv.done hdone)
  · have hfailed := hinv.blocked (hinv.attempts ▸ hfails)
    refine ⟨hfailed, fun ds u hrun => ?_⟩
    have hnot := run_notAfter hrun
    rw [hfailed] at hnot
    exact hnot.failed

/-- One function, integrated and finished. -/
def integrated (results : List Bool) : List Cmd :=
  [.init ["f"] .devLoop, .func "f" .done, .phase .integrate none] ++
    results.map .integrate ++ [.phase .done none]

/-- A failure and then a pass: the finished aggregate is valid. -/
theorem failPass_valid : ∃ t, t.phase = .done ∧ Valid (integrated [false, true]) t :=
  ⟨⟨.done, [("f", .done)], 1, true, none⟩, rfl, run_valid (Run.of_runAll (by decide))⟩

/-- A pass and then a failure: the aggregate is finished all the same. -/
theorem passFail_done : ∃ t, AnyRun step none (integrated [true, false]) (some t) ∧
    t.phase = .done ∧ lastIntegrate (integrated [true, false]) = some false :=
  ⟨⟨.done, [("f", .done)], 1, true, none⟩, Run.of_runAll (by decide), rfl, by decide⟩

end TileLangNpuir.Statectl.Migration
