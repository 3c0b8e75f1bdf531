import TileLangNpuir.Statectl.Machine
import Mathlib.Data.List.TakeWhile

/-!
# Stage order and stale designs

A stage that runs or has passed should have the stages before it in the plan behind it,
and after a revision of the design nothing but the design should run until stage 1 has
passed again. `start` checks the order only for a stage that has no status yet, so a
stage that failed, the pass of a revision and `--extend` go around it; and a revision
leaves stage 1 completed, so that a later stage may start before the pass is used.
-/

namespace TileLangNpuir.Statectl

/-! ## Stages before a stage -/

section Before

variable {plan : List Stage} {m n : Stage}

theorem ne_of_mem_before (h : m ∈ before plan n) : m ≠ n := by
  simpa using List.mem_takeWhile_imp h

theorem mem_of_mem_before (h : m ∈ before plan n) : m ∈ plan :=
  (List.takeWhile_prefix _).subset h

/-- Of two stages of a plan, one comes first. -/
theorem mem_before_of_not_mem (hm : m ∈ plan) (hn : n ∈ plan) (hne : m ≠ n)
    (h : n ∉ before plan m) : m ∈ before plan n := by
  induction plan with
  | nil => cases hm
  | cons k plan ih =>
    rw [before, List.takeWhile_cons] at h ⊢
    by_cases hkn : k = n
    · -- then `n` comes before `m` after all
      subst hkn
      simp [hne.symm] at h
    · by_cases hkm : k = m
      · subst hkm
        simp [hkn]
      · simp only [hkn, hkm, decide_true, ne_eq, not_false_eq_true, if_true, List.mem_cons,
          not_or] at h ⊢
        right
        refine ih ?_ ?_ h.2
        · exact (List.mem_cons.mp hm).resolve_left (Ne.symm hkm)
        · exact (List.mem_cons.mp hn).resolve_left (Ne.symm hkn)

/-- In an ascending plan the stages before a stage are the smaller ones. -/
theorem mem_before_iff (hsorted : plan.Pairwise (· < ·)) (hn : n ∈ plan) :
    m ∈ before plan n ↔ m ∈ plan ∧ m < n := by
  induction plan with
  | nil => cases hn
  | cons k plan ih =>
    rw [before, List.takeWhile_cons]
    obtain ⟨hk, hsorted⟩ := List.pairwise_cons.mp hsorted
    by_cases hkn : k = n
    · subst hkn
      have hnot : ∀ m ∈ plan, ¬m < k := fun m hm => Fin.not_lt.mpr (Fin.le_of_lt (hk m hm))
      simp only [ne_eq, not_true_eq_false, decide_false, Bool.false_eq_true, if_false,
        List.not_mem_nil, List.mem_cons, false_iff, not_and]
      rintro (rfl | hm)
      · exact Fin.lt_irrefl m
      · exact hnot m hm
    · have hmem := (List.mem_cons.mp hn).resolve_left (Ne.symm hkn)
      have hih := ih hsorted hmem
      rw [before] at hih
      simp only [ne_eq, hkn, not_false_eq_true, decide_true, if_true, List.mem_cons, hih]
      constructor
      · rintro (rfl | ⟨hm, hlt⟩)
        · exact ⟨.inl rfl, hk n hmem⟩
        · exact ⟨.inr hm, hlt⟩
      · rintro ⟨rfl | hm, hlt⟩
        · exact .inl rfl
        · exact .inr ⟨hm, hlt⟩

theorem extendPlan_pairwise (plan : List Stage) : (extendPlan plan).Pairwise (· < ·) :=
  (List.pairwise_lt_finRange 6).filter _

end Before

/-! ## Revisions in a history -/

/-- `fail --reason design_revision`. -/
def Cmd.isRevision : Cmd → Bool
  | .fail _ true _ none _ => true
  | _ => false

/-- `complete 1`. -/
def Cmd.passesDesign : Cmd → Bool
  | .complete 1 _ _ => true
  | _ => false

/-- How far the design is redone: since the last revision stage 1 has passed, or nothing
was started, or something was. -/
inductive Redo : Type where
  | settled | opened | underway
  deriving DecidableEq

/-- One accepted command. -/
def Redo.next (r : Redo) : Cmd → Redo
  | .fail _ true _ none _ => .opened
  | .complete 1 _ _ => .settled
  | .start .. => if r = .opened then .underway else r
  | _ => r

/-- The accepted commands so far. -/
def redo (h : List Cmd) : Redo := h.foldl .next .settled

@[simp]
theorem redo_append (h : List Cmd) (c : Cmd) : redo (h ++ [c]) = (redo h).next c :=
  List.foldl_append ..

theorem Redo.next_complete (r : Redo) (n : Stage) (gate : Bool) (files : Files) :
    r.next (.complete n gate files) = if n = 1 then .settled else r := by
  unfold Redo.next
  split
  · rename_i heq
    cases heq
  · rename_i heq
    cases heq
    rfl
  · rename_i heq
    cases heq
  · rename_i hne _
    rw [if_neg]
    rintro rfl
    exact hne _ _ rfl

theorem Redo.next_blocked (r : Redo) (n : Stage) (b : Bool) (failType : FailType)
    (code : Option BlockedCode) (files : Files) :
    r.next (.fail n b failType (some code) files) = r := by
  cases b <;> rfl

theorem Redo.next_ne_settled {r : Redo} {c : Cmd} (hr : r ≠ .settled)
    (hc : c.passesDesign = false) : r.next c ≠ .settled := by
  unfold Redo.next
  split
  · decide
  · cases hc
  · split
    · decide
    · exact hr
  · exact hr

/-- A revision stays open until stage 1 passes. -/
theorem redo_ne_settled {xs ys : List Cmd} {c : Cmd} (hc : c.isRevision = true)
    (hys : ∀ d ∈ ys, d.passesDesign = false) : redo (xs ++ c :: ys) ≠ .settled := by
  have hkeep : ∀ r : Redo, r ≠ .settled → ys.foldl Redo.next r ≠ .settled := by
    induction ys with
    | nil => exact fun r hr => hr
    | cons d ys ih =>
      intro r hr
      apply ih
      · exact fun e he => hys e (List.mem_cons_of_mem _ he)
      · exact Redo.next_ne_settled hr (hys d List.mem_cons_self)
  have hopen : ∀ r : Redo, r.next c = .opened := by
    intro r
    unfold Cmd.isRevision at hc
    split at hc
    · rfl
    · cases hc
  rw [redo, List.foldl_append, List.foldl_cons, hopen]
  exact hkeep .opened (by decide)

/-- Between a revision and the next `complete 1` no stage later than 1 is started. -/
def NoStaleStart (h : List Cmd) : Prop :=
  ∀ xs c ys, h = xs ++ c :: ys → c.isRevision = true → (∀ d ∈ ys, d.passesDesign = false) →
    ∀ n extend, .start n extend ∈ ys → n ≤ 1

theorem NoStaleStart.append {h : List Cmd} {c : Cmd} (hI : NoStaleStart h)
    (hc : redo h ≠ .settled → ∀ n extend, c = .start n extend → n ≤ 1) :
    NoStaleStart (h ++ [c]) := by
  intro xs d ys heq hd hys n extend hmem
  -- the new command is the revision itself, or the last of `ys`
  obtain rfl | ⟨zs, e, rfl⟩ := List.eq_nil_or_concat ys
  · cases hmem
  rw [List.concat_eq_append] at heq hys hmem
  have hsplit : h ++ [c] = (xs ++ d :: zs) ++ [e] := by
    rw [heq, List.append_assoc, List.cons_append]
  obtain ⟨rfl, hce⟩ := List.append_inj' hsplit rfl
  obtain rfl := (List.cons.inj hce).1
  have hzs : ∀ d ∈ zs, d.passesDesign = false :=
    fun d hd => hys d (List.mem_append_left _ hd)
  rcases List.mem_append.mp hmem with hmem | hmem
  · exact hI xs d zs rfl hd hzs n extend hmem
  · exact hc (redo_ne_settled hd hzs) n extend (List.mem_singleton.mp hmem).symm

/-! ## Order -/

namespace State

variable {s u : State} {n : Stage} {h : List Cmd}

/-- A stage that runs or has passed. -/
def busy (s : State) (n : Stage) : Prop :=
  s.stageStatus n = some .inProgress ∨ s.stageStatus n = some .completed

instance : Decidable (s.busy n) := inferInstanceAs (Decidable (_ ∨ _))

/-- What is busy has the stages before it completed. -/
def InOrder (s : State) : Prop :=
  ∀ n, s.busy n → ∀ m ∈ before s.stagePlan n, s.stageStatus m = some .completed

/-- When `start` keeps the order: a failed stage is entered again when the stages before
it are completed, the pass is used when no later stage is completed, the plan is
extended before stage 5, and the first stage after a revision is the design. -/
def StartsInOrder (h : List Cmd) (s : State) (n : Stage) : Prop :=
  (s.stageStatus n = some .failed →
      ∀ m ∈ before (s.planFor n) n, s.stageStatus m = some .completed) ∧
    (s.stageStatus n = some .completed →
      ∀ m ∈ s.stagePlan, n ∈ before s.stagePlan m → s.stageStatus m ≠ some .completed) ∧
    (s.planFor n = s.stagePlan ∨ s.stageStatus 5 ≠ some .completed) ∧
    (redo h = .opened → n = 1)

/-- When a revision keeps the order: no later stage stands before stage 1 in the plan,
and nothing that stays busy has the failing stage, or a later one, before it. -/
def RevisesInOrder (s : State) (n : Stage) : Prop :=
  (∀ k ∈ before s.stagePlan 1, k ≤ 1) ∧
    ∀ m ≤ 1, m ≠ n → s.busy m → ∀ k ∈ before s.stagePlan m, k ≤ 1 ∧ k ≠ n

set_option synthInstance.maxSize 512 in
instance : Decidable (StartsInOrder h s n) := inferInstanceAs (Decidable (_ ∧ _ ∧ _ ∧ _))

instance : Decidable (s.RevisesInOrder n) := inferInstanceAs (Decidable (_ ∧ _))

/-- The commands that keep the order. -/
def keepsOrder (h : List Cmd) (s : State) : Cmd → Bool
  | .start n _ => decide (StartsInOrder h s n)
  | .fail n true _ none _ => decide (s.RevisesInOrder n)
  | _ => true

/-- What the commands keep: the order, and what the open revision has cleared. -/
structure Ordered (h : List Cmd) (s : State) : Prop where
  inPlan : ∀ m, s.stageStatus m ≠ none → m ∈ s.stagePlan
  inOrder : s.InOrder
  designFirst : redo h ≠ .settled → ∀ k ∈ before s.stagePlan 1, k ≤ 1
  cleared : redo h ≠ .settled → ∀ m, 1 < m → s.stageStatus m = none
  underway : redo h = .underway → 1 ∈ s.stagePlan ∧ s.stageStatus 1 ≠ some .completed

theorem busy.ne_none (hb : s.busy n) : s.stageStatus n ≠ none := by
  obtain hb | hb := hb <;> rw [hb] <;> exact Option.some_ne_none _

/-- A plan that `start` changes is extended by stage 4. -/
theorem planFor_cases {extend : Bool} (hst : Started s n extend u) :
    s.planFor n = s.stagePlan ∨ n = 4 ∧ s.planFor n = extendPlan s.stagePlan := by
  rw [planFor]
  split
  · rename_i hor
    simp only [Bool.or_eq_true, decide_eq_true_eq] at hor
    exact .inr ⟨(hst.extends_ hor).2, rfl⟩
  · exact .inl rfl

theorem subset_planFor (m : Stage) (hm : m ∈ s.stagePlan) : m ∈ s.planFor n := by
  rw [planFor]
  split
  · exact mem_extendPlan.mpr (.inl hm)
  · exact hm

/-- What was entered has the stages before it completed. -/
theorem entry_before {extend : Bool} {last : Option FailureReason} (hI : Ordered h s)
    (hcond : StartsInOrder h s n) (hst : Started s n extend u) (hentry : Entry s n last) :
    ∀ m ∈ before (s.planFor n) n, s.stageStatus m = some .completed := by
  cases hentry with
  | fresh _ hbefore => exact hbefore
  | again hstatus => exact hcond.1 hstatus
  | revision hstage hstatus =>
    obtain hplan | ⟨rfl, -⟩ := planFor_cases hst
    · rw [hplan]
      exact hI.inOrder n (.inr hstatus)
    · exact absurd hstage (by decide)

theorem start_inOrder {extend : Bool} (hI : Ordered h s) (hcond : StartsInOrder h s n)
    (hst : Started s n extend u) : u.InOrder := by
  obtain ⟨last, hentry, rfl⟩ := hst.entered
  have hbefore := entry_before hI hcond hst hentry
  intro k hk m hm
  have hm' : m ∈ before (s.planFor n) k := hm
  change Function.update s.stageStatus n (some .inProgress) m = some .completed
  by_cases hkn : k = n
  · subst hkn
    rw [Function.update_of_ne (ne_of_mem_before hm')]
    exact hbefore m hm'
  · -- another busy stage is a completed one, since only one stage runs
    have hcompleted : s.stageStatus k = some .completed := by
      have hbusy : s.busy k := by
        simpa only [busy, Function.update_of_ne hkn] using hk
      exact hbusy.resolve_left (hst.alone k hkn)
    have hkplan : k ∈ s.stagePlan := hI.inPlan k (busy.ne_none (.inr hcompleted))
    by_cases hplan : s.planFor n = s.stagePlan
    · rw [hplan] at hm'
      have hmn : m ≠ n := by
        rintro rfl
        have hstatus := hI.inOrder k (.inr hcompleted) m hm'
        exact hcond.2.1 hstatus k hkplan hm' hcompleted
      rw [Function.update_of_ne hmn]
      exact hI.inOrder k (.inr hcompleted) m hm'
    · obtain ⟨rfl, hext⟩ := (planFor_cases hst).resolve_left hplan
      have hk5 : k ≠ 5 := by
        rintro rfl
        exact hcond.2.2.1.resolve_left hplan hcompleted
      rw [hext] at hm' hbefore
      have hsorted := extendPlan_pairwise s.stagePlan
      obtain ⟨hmplan, hmk⟩ := (mem_before_iff hsorted (mem_extendPlan.mpr (.inl hkplan))).mp hm'
      have hlt : ∀ k m : Stage, m < k → k ≠ 5 → k ≠ 4 → m < 4 := by decide
      have hm4 := hlt k m hmk hk5 hkn
      have hmem : m ∈ before (extendPlan s.stagePlan) 4 :=
        (mem_before_iff hsorted (mem_extendPlan.mpr (.inr rfl))).mpr ⟨hmplan, hm4⟩
      rw [Function.update_of_ne (Fin.ne_of_lt hm4)]
      exact hbefore m hmem

/-- While a revision is open only the design, and what comes before it, can start. -/
theorem start_le_one {extend : Bool} (hI : Ordered h s) (hcond : StartsInOrder h s n)
    (hst : Started s n extend u) (hopen : redo h ≠ .settled) : n ≤ 1 := by
  cases hredo : redo h with
  | settled => exact absurd hredo hopen
  | opened => exact Fin.le_of_eq (hcond.2.2.2 hredo)
  | underway =>
    obtain ⟨hdesign, hnot⟩ := hI.underway hredo
    by_contra hle
    have hlt : 1 < n := Fin.not_le.mp hle
    obtain ⟨last, hentry, -⟩ := hst.entered
    have hbefore := entry_before hI hcond hst hentry
    apply hnot
    apply hbefore
    obtain hplan | ⟨rfl, hplan⟩ := planFor_cases hst
    · have hn := hst.inPlan
      rw [hplan] at hn ⊢
      refine mem_before_of_not_mem hdesign hn (Fin.ne_of_lt hlt) fun hmem => ?_
      exact hle (hI.designFirst hopen n hmem)
    · rw [hplan]
      refine (mem_before_iff (extendPlan_pairwise _) (mem_extendPlan.mpr (.inr rfl))).mpr ?_
      exact ⟨mem_extendPlan.mpr (.inl hdesign), hlt⟩

theorem start_ordered {extend : Bool} (hI : Ordered h s) (hcond : StartsInOrder h s n)
    (hst : Started s n extend u) : Ordered (h ++ [.start n extend]) u := by
  have hredo : redo (h ++ [.start n extend]) =
      if redo h = .opened then .underway else redo h := redo_append ..
  have hopen : redo (h ++ [.start n extend]) ≠ .settled → redo h ≠ .settled := by
    rw [hredo]
    split
    · rename_i heq
      rw [heq]
      exact fun _ => by decide
    · exact id
  have hplan : redo h ≠ .settled → s.planFor n = s.stagePlan := by
    intro hne
    have hle := start_le_one hI hcond hst hne
    refine (planFor_cases hst).resolve_right ?_
    rintro ⟨rfl, -⟩
    exact absurd hle (by decide)
  have horder := start_inOrder hI hcond hst
  obtain ⟨last, hentry, rfl⟩ := hst.entered
  refine ⟨?_, horder, ?_, ?_, ?_⟩
  · intro m hm
    by_cases hmn : m = n
    · subst hmn
      exact hst.inPlan
    · refine subset_planFor m (hI.inPlan m ?_)
      simpa only [Function.update_of_ne hmn] using hm
  · intro hne k hk
    simp only [hplan (hopen hne)] at hk
    exact hI.designFirst (hopen hne) k hk
  · intro hne m hm
    have hle := start_le_one hI hcond hst (hopen hne)
    have hmn : m ≠ n := Fin.ne_of_gt (Fin.lt_of_le_of_lt hle hm)
    exact (Function.update_of_ne hmn ..).trans (hI.cleared (hopen hne) m hm)
  · intro heq
    have hne : redo h ≠ .settled := hopen (by rw [heq]; decide)
    simp only [hplan hne]
    by_cases hn : n = 1
    · subst hn
      have hmem := hst.inPlan
      rw [hplan hne] at hmem
      simp [hmem]
    · rw [Function.update_of_ne (Ne.symm hn)]
      apply hI.underway
      rw [hredo] at heq
      split at heq
      · rename_i hopened
        exact absurd (hcond.2.2.2 hopened) hn
      · exact heq

theorem complete_ordered {gate : Bool} {files : Files} (hI : Ordered h s)
    (hc : Completed s n gate u) : Ordered (h ++ [.complete n gate files]) u := by
  obtain ⟨phase, stage, artifact, -, rfl⟩ := hc.next
  have hbusy : ∀ k, Function.update s.stageStatus n (some .completed) k ≠ none →
      s.stageStatus k ≠ none := by
    intro k hk
    by_cases hkn : k = n
    · rw [hkn, hc.status]
      exact Option.some_ne_none _
    · rwa [Function.update_of_ne hkn] at hk
  have hopen : redo (h ++ [.complete n gate files]) ≠ .settled →
      n ≠ 1 ∧ redo (h ++ [.complete n gate files]) = redo h := by
    rw [redo_append, Redo.next_complete]
    split
    · exact fun hne => absurd rfl hne
    · rename_i hn
      exact fun _ => ⟨hn, rfl⟩
  refine ⟨fun m hm => hI.inPlan m (hbusy m hm), ?_, ?_, ?_, ?_⟩
  · intro k hk m hm
    have hmem : m ∈ before s.stagePlan k := hm
    have hcompleted : s.stageStatus m = some .completed := by
      refine hI.inOrder k ?_ m hmem
      by_cases hkn : k = n
      · exact .inl (hkn ▸ hc.status)
      · simpa only [busy, Function.update_of_ne hkn] using hk
    change Function.update s.stageStatus n (some .completed) m = some .completed
    by_cases hmn : m = n
    · rw [hmn, Function.update_self]
    · rw [Function.update_of_ne hmn, hcompleted]
  · exact fun hne => hI.designFirst ((hopen hne).2 ▸ hne)
  · intro hne m hm
    have hnone := hI.cleared ((hopen hne).2 ▸ hne) m hm
    by_contra hsome
    exact hbusy m hsome hnone
  · intro heq
    obtain ⟨hn, hsame⟩ := hopen (by rw [heq]; decide)
    obtain ⟨hmem, hnot⟩ := hI.underway (hsame ▸ heq)
    refine ⟨hmem, ?_⟩
    change Function.update s.stageStatus n (some .completed) 1 ≠ some .completed
    rwa [Function.update_of_ne (Ne.symm hn)]

theorem reviseDesign_ordered {failType : FailType} {files : Files} (hI : Ordered h s)
    (hstatus : s.stageStatus n ≠ none) (hcond : s.RevisesInOrder n) :
    Ordered (h ++ [.fail n true failType none files]) (s.reviseDesign n) := by
  obtain ⟨hfirst, hbefore⟩ := hcond
  have hredo : redo (h ++ [.fail n true failType none files]) = .opened := redo_append ..
  have hinPlan : ∀ m, (s.reviseDesign n).stageStatus m ≠ none → m ∈ s.stagePlan := by
    intro m hm
    apply hI.inPlan
    rw [reviseDesign_stageStatus] at hm
    split at hm
    · exact absurd rfl hm
    · split at hm
      · rename_i hmn
        rwa [hmn]
      · exact hm
  have hcleared : ∀ m, 1 < m → (s.reviseDesign n).stageStatus m = none := by
    intro m hm
    by_contra hsome
    have hmem := hinPlan m hsome
    rw [reviseDesign_stageStatus, if_pos ⟨hmem, hm⟩] at hsome
    exact hsome rfl
  refine ⟨?_, ?_, ?_, fun _ => hcleared, ?_⟩
  · rwa [reviseDesign_stagePlan]
  · intro k hk m hm
    rw [reviseDesign_stagePlan] at hm
    -- what is still busy is the design or the scaffold, as it was
    have hle : k ≤ 1 := by
      by_contra hlt
      exact hk.ne_none (hcleared k (Fin.not_le.mp hlt))
    have hlate : ∀ j, j ≤ 1 → ¬(j ∈ s.stagePlan ∧ 1 < j) :=
      fun j hj hlt => absurd hj (Fin.not_le.mpr hlt.2)
    rw [busy, reviseDesign_stageStatus, if_neg (hlate k hle)] at hk
    have hkn : k ≠ n := by
      rintro rfl
      rw [if_pos rfl] at hk
      obtain hk | hk := hk <;> cases hk
    rw [if_neg hkn] at hk
    obtain ⟨hmle, hmn⟩ := hbefore k hle hkn hk m hm
    rw [reviseDesign_stageStatus, if_neg (hlate m hmle), if_neg hmn]
    exact hI.inOrder k hk m hm
  · exact fun _ => by rwa [reviseDesign_stagePlan]
  · rw [hredo]
    exact fun heq => by cases heq

/-- A status that is not better than before keeps the order. -/
theorem countFailure_ordered {failType failType' : FailType} {files files' : Files}
    (hI : Ordered h s)
    (hstatus : s.stageStatus n = some .inProgress ∨ s.stageStatus n = some .failed) :
    Ordered (h ++ [.fail n false failType none files]) (s.countFailure n failType' files') := by
  have hredo : redo (h ++ [.fail n false failType none files]) = redo h := redo_append ..
  have hnone : s.stageStatus n ≠ none := by
    obtain hs | hs := hstatus <;> rw [hs] <;> exact Option.some_ne_none _
  have hnot : s.stageStatus n ≠ some .completed := by
    obtain hs | hs := hstatus <;> rw [hs] <;> decide
  refine ⟨?_, ?_, ?_, ?_, ?_⟩
  · intro m hm
    rw [countFailure_stagePlan]
    apply hI.inPlan
    by_cases hmn : m = n
    · rwa [hmn]
    · rwa [countFailure_stageStatus, Function.update_of_ne hmn] at hm
  · intro k hk m hm
    rw [countFailure_stagePlan] at hm
    rw [busy, countFailure_stageStatus] at hk
    have hkn : k ≠ n := by
      rintro rfl
      rw [Function.update_self] at hk
      obtain hk | hk := hk <;> cases hk
    rw [Function.update_of_ne hkn] at hk
    have hcompleted := hI.inOrder k hk m hm
    have hmn : m ≠ n := by
      rintro rfl
      exact hnot hcompleted
    rw [countFailure_stageStatus, Function.update_of_ne hmn, hcompleted]
  · rw [hredo, countFailure_stagePlan]
    exact hI.designFirst
  · rw [hredo]
    intro hne m hm
    have hmnone := hI.cleared hne m hm
    rw [countFailure_stageStatus, Function.update_of_ne, hmnone]
    rintro rfl
    exact hnone hmnone
  · rw [hredo]
    intro heq
    obtain ⟨hmem, hne⟩ := hI.underway heq
    refine ⟨by rwa [countFailure_stagePlan], ?_⟩
    rw [countFailure_stageStatus]
    by_cases hn : 1 = n
    · rw [hn, Function.update_self]
      decide
    · rwa [Function.update_of_ne hn]

theorem step_ordered {c : Cmd} (hI : Ordered h s) (hcond : s.keepsOrder h c = true)
    (hok : s.step c = .ok u) : Ordered (h ++ [c]) u := by
  cases c with
  | init args => cases hok
  | start n extend => exact start_ordered hI (of_decide_eq_true hcond) (start_ok hok)
  | complete n gate files => exact complete_ordered hI (complete_ok hok)
  | fail n r failType code files =>
    have hfail := fail_ok hok
    cases hfail with
    | blocked r code heq =>
      subst heq
      have hredo : redo (h ++ [.fail n r failType (some (some code)) files]) = redo h := by
        rw [redo_append, Redo.next_blocked]
      refine ⟨hI.inPlan, hI.inOrder, ?_, ?_, ?_⟩ <;> rw [hredo]
      · exact hI.designFirst
      · exact hI.cleared
      · exact hI.underway
    | revised _ hstatus heq =>
      subst heq
      exact reviseDesign_ordered hI hstatus (of_decide_eq_true hcond)
    | counted _ _ _ _ hstatus heq =>
      subst heq
      exact countFailure_ordered hI hstatus
  | set perfTuning finalArtifact =>
    obtain rfl := Except.ok.inj hok
    have hredo : redo (h ++ [.set perfTuning finalArtifact]) = redo h := redo_append ..
    refine ⟨hI.inPlan, hI.inOrder, ?_, ?_, ?_⟩ <;> rw [hredo]
    · exact hI.designFirst
    · exact hI.cleared
    · exact hI.underway

end State

/-- A review that sends the design back, and the second round. -/
def revised : List Cmd :=
  [.start 1 false, .complete 1 true ⟨none, none⟩, .start 2 false,
    .fail 2 true .runtime none ⟨none, none⟩, .start 1 false, .complete 1 true ⟨none, none⟩,
    .start 2 false]

/-- The review runs again on the old design, and the pass is used after it: then stage 2
is completed while stage 1 runs. -/
def stale : List Cmd :=
  [.start 1 false, .complete 1 true ⟨none, none⟩, .start 2 false,
    .fail 2 true .runtime none ⟨none, none⟩, .start 2 false, .complete 2 true ⟨none, none⟩,
    .start 1 false]

end TileLangNpuir.Statectl
