import TileLangNpuir.Pipeline.Injected
import TileLangNpuir.Pipeline.Legal

/-!
# Planned loops

`PipelinePlanning` gives a loop its stages and orders and `InjectSoftwarePipeline` takes them: it
accepts exactly the legal plans. A planned loop has two stages, so that each instance runs once
however short the loop is, unless copies were moved to the front and one of them is read by nobody.
-/

namespace TileLangNpuir.Pipeline

open Tir

/-! ## What the check accepts -/

section

variable {R : Type}

theorem mayPrecede_iff {p q : PipelineBlock R} : p.mayPrecede q = true ↔ Precedes p q := by
  refine ⟨precedes_of_mayPrecede, fun h => ?_⟩
  simp only [PipelineBlock.mayPrecede, Bool.and_eq_true, Bool.or_eq_true, decide_eq_true_eq]
  rcases h with h | ⟨h, ho⟩
  · exact ⟨h.le, .inl h.ne⟩
  · exact ⟨h.le, .inr ho⟩

theorem validatePipelineBody_iff {info : List (PipelineBlock R)} :
    validatePipelineBody info = true ↔ info.Pairwise fun p q =>
      p.order ≠ q.order ∧ (p.feeds q = true → Precedes p q) := by
  induction info with
  | nil => exact iff_of_true rfl .nil
  | cons p info ih =>
    rw [validatePipelineBody, Bool.and_eq_true, List.pairwise_cons, ih, List.all_eq_true]
    refine and_congr_left fun _ => forall₂_congr fun q _ => ?_
    rw [Bool.and_eq_true, decide_eq_true_eq, Bool.or_eq_true, Bool.not_eq_true', ← mayPrecede_iff]
    cases p.feeds q <;> simp

theorem orderedStmts_isSome_iff {info : List (PipelineBlock R)} :
    (orderedStmts info).isSome = true ↔
      ∀ k < info.length, ∃ b ∈ info, b.order = ((k : ℕ) : ℤ) := by
  have hfind : ∀ k : ℕ, (∃ b, (info.find? fun b => b.order = (k : ℤ)) = some b) ↔
      ∃ b ∈ info, b.order = (k : ℤ) := by
    intro k
    rw [← Option.isSome_iff_exists, List.find?_isSome]
    simp only [decide_eq_true_eq]
  refine ⟨fun h k hk => ?_, fun h => ?_⟩
  · obtain ⟨ordered, hordered⟩ := Option.isSome_iff_exists.mp h
    have hspec := mapM_eq_some_iff.mp hordered
    obtain ⟨b, -, hb⟩ := exists_getElem?_of_forall₂ hspec (List.getElem?_range hk)
    exact (hfind k).mp ⟨b, hb⟩
  · have hall : ∀ ks : List ℕ, (∀ k ∈ ks, k < info.length) → ∃ ordered,
        (ks.mapM fun k : ℕ => info.find? fun b => b.order = (k : ℤ)) = some ordered := by
      intro ks
      induction ks with
      | nil => exact fun _ => ⟨[], rfl⟩
      | cons k ks ih =>
        intro hks
        obtain ⟨b, hb⟩ := (hfind k).mpr (h k (hks k List.mem_cons_self))
        obtain ⟨bs, hbs⟩ := ih fun k hk => hks k (List.mem_cons_of_mem _ hk)
        exact ⟨b :: bs, by rw [List.mapM_cons, hb, hbs]; rfl⟩
    obtain ⟨ordered, hordered⟩ := hall (List.range info.length) fun k => List.mem_range.mp
    rw [orderedStmts, hordered]
    rfl

end

/-! ## Plans as annotations -/

section

variable {R : Type}

/-- A block with its place in the plan. -/
def annotate (infos : List (StageInfo Buffer R)) (bodies : ℕ → Stmt) (s : Slots) (p : ℕ) :
    PipelineBlock R :=
  ⟨bodies p, (infoAt infos p).reads, (infoAt infos p).writes, s.stage p, s.order p, false⟩

/-- The blocks of a loop with a plan. -/
def annotated (infos : List (StageInfo Buffer R)) (bodies : ℕ → Stmt) (s : Slots) :
    List (PipelineBlock R) :=
  (List.range infos.length).map (annotate infos bodies s)

/-- One statement reads a buffer that the other writes, wherever. -/
def FeedsBuffer (infos : List (StageInfo Buffer R)) (i j : ℕ) : Prop :=
  ((infoAt infos j).reads.any fun read =>
    (infoAt infos i).writes.any fun write => write.buffer.data = read.buffer.data) = true

variable {infos : List (StageInfo Buffer R)} {bodies : ℕ → Stmt} {s : Slots}

theorem length_annotated : (annotated infos bodies s).length = infos.length := by
  rw [annotated, List.length_map, List.length_range]

theorem permutesRange_iff {n : ℕ} {f : ℕ → ℤ} :
    PermutesRange n f ↔ ∀ k < n, ∃ p < n, f p = ((k : ℕ) : ℤ) := by
  refine ⟨fun h k hk => ?_, fun h => ?_⟩
  · have hmem : (k : ℤ) ∈ (List.range n).map f :=
      h.mem_iff.mpr (List.mem_map.mpr ⟨k, List.mem_range.mpr hk, rfl⟩)
    obtain ⟨p, hp, hpk⟩ := List.mem_map.mp hmem
    exact ⟨p, List.mem_range.mp hp, hpk⟩
  · have hnodup : ((List.range n).map fun (i : ℕ) => (i : ℤ)).Nodup :=
      List.nodup_range.map Nat.cast_injective
    refine ((hnodup.subperm fun z hz => ?_).perm_of_length_le (by simp)).symm
    obtain ⟨k, hk, rfl⟩ := List.mem_map.mp hz
    obtain ⟨p, hp, hpk⟩ := h k (List.mem_range.mp hk)
    exact List.mem_map.mpr ⟨p, List.mem_range.mpr hp, hpk⟩

variable (bodies) in
/-- The annotations are accepted exactly when they are legal. -/
theorem annotated_accepted_iff :
    (validatePipelineBody (annotated infos bodies s) = true ∧
        (orderedStmts (annotated infos bodies s)).isSome = true) ↔
      Legal infos.length (FeedsBuffer infos) s := by
  have horders : (orderedStmts (annotated infos bodies s)).isSome = true ↔
      PermutesRange infos.length s.order := by
    rw [orderedStmts_isSome_iff, length_annotated, permutesRange_iff]
    refine forall₂_congr fun k _ => ?_
    simp only [annotated, annotate, List.mem_map, List.mem_range, exists_exists_and_eq_and]
  have hpairs : validatePipelineBody (annotated infos bodies s) = true ↔
      ∀ i j, i < j → j < infos.length → s.order i ≠ s.order j ∧ (FeedsBuffer infos i j →
        s.stage i < s.stage j ∨ s.stage i = s.stage j ∧ s.order i < s.order j) := by
    rw [validatePipelineBody_iff, annotated, List.pairwise_map, List.pairwise_iff_getElem]
    simp only [List.length_range, List.getElem_range]
    exact ⟨fun h i j hij hj => h i j (by omega) hj hij, fun h i j _ hj hij => h i j hij hj⟩
  rw [horders, hpairs]
  refine ⟨fun ⟨h, hperm⟩ => ⟨hperm, fun i j hij hj => (h i j hij hj).2⟩, fun h =>
    ⟨fun i j hij hj => ⟨fun heq => ?_, h.dependences i j hij hj⟩, h.orders⟩⟩
  exact absurd (h.orders.inj (by omega) hj heq) hij.ne

theorem schedule_eq {K : Body} {numStages : ℤ} (h : K.schedule numStages = some s) :
    0 < K.size ∧ s = K.moveCopies numStages (K.settled numStages) := by
  rw [Body.schedule] at h
  split at h
  · cases h
  · rename_i hsize
    rw [← Body.settled] at h
    simp only [settled_orderIdx, if_true] at h
    exact ⟨Nat.pos_of_ne_zero hsize, (Option.some.inj h).symm⟩

/-- A copy that no statement reads, so that the main loop takes it for a computation. -/
def Body.UnreadCopy (K : Body) (p : ℕ) : Prop :=
  p < K.size ∧ K.isCopy p = true ∧ K.isFirstStage p = false

/-- The copies stand at the end and are moved to the front. -/
def Body.Moves (K : Body) (numStages : ℤ) : Prop :=
  0 < K.copyStageAtEnd (K.settled numStages) ∧ 2 ≤ numStages

instance decidableMoves (K : Body) (numStages : ℤ) : Decidable (K.Moves numStages) :=
  inferInstanceAs (Decidable (_ ∧ _))

theorem moved_stage {K : Body} {numStages : ℤ} (h : K.Moves numStages) {p : ℕ} (hp : p < K.size) :
    (K.moveCopies numStages (K.settled numStages)).stage p =
      if K.isFirstStage p then 0 else if K.isCopy p then numStages else numStages - 1 := by
  have hmove : (K.moveCopies numStages (K.settled numStages)).stage p =
      if K.isCopy p then (K.settled numStages).stage p
      else (K.settled numStages).stage p - 1 := by
    rw [Body.moveCopies, if_pos (show _ ∧ _ from h)]
  rw [hmove, settled_stage hp]
  cases hfirst : K.isFirstStage p with
  | true => rw [isCopy_of_isFirstStage hfirst, if_pos rfl, if_pos rfl, if_pos rfl]
  | false => rfl

/-- Where copies are moved there is something else than copies. -/
theorem exists_not_copy_of_moves {K : Body} {numStages : ℤ} (h : K.Moves numStages)
    (hsize : 0 < K.size) (hnumbers : Numbers K.size (K.settled numStages).order) :
    ∃ q < K.size, K.isCopy q = false := by
  by_contra hnone
  have hcopies : ∀ q < K.size, K.isCopy q = true := fun q hq => by
    by_contra hnot
    exact hnone ⟨q, hq, by simpa using hnot⟩
  obtain ⟨p, hp, hzero⟩ := permutesRange_iff.mp hnumbers.permutesRange 0 hsize
  have hlate := h.1
  rw [Body.copyStageAtEnd] at hlate
  split at hlate
  · rename_i hlt
    have hothers : (List.range K.size).filter (fun p => !K.isCopy p) = [] :=
      List.filter_eq_nil_iff.mpr fun q hq => by simp [hcopies q (List.mem_range.mp hq)]
    have hmem : p ∈ (List.range K.size).filter fun p => K.isCopy p :=
      List.mem_filter.mpr ⟨List.mem_range.mpr hp, hcopies p hp⟩
    rw [hothers, List.foldl_nil] at hlt
    have := lt_of_lt_of_le hlt (foldl_min_le (f := (K.settled numStages).order) hmem)
    rw [hzero] at this
    exact absurd this (by decide)
  · omega

theorem foldl_max_stage_le {info : List (PipelineBlock R)} {n M : ℤ} (hn : n ≤ M)
    (h : ∀ b ∈ info, b.stage ≤ M) : info.foldl (fun n b => max n b.stage) n ≤ M := by
  induction info generalizing n with
  | nil => exact hn
  | cons b info ih =>
    exact ih (max_le hn (h b List.mem_cons_self)) fun c hc => h c (List.mem_cons_of_mem b hc)

/-- Two stages leave nothing in between. -/
theorem stage_cases_of_two {info : List (PipelineBlock R)} {M : ℤ} (hM : 0 ≤ M)
    (h : ∀ b ∈ info, b.stage = 0 ∨ b.stage = M) :
    ∀ b ∈ info, b.stage = 0 ∨ b.stage = maxStage info := by
  intro b hb
  refine (h b hb).imp_right fun hbM => ?_
  have hle : maxStage info ≤ M := foldl_max_stage_le (by omega) fun c hc => by
    have := h c hc
    omega
  have hge := stage_le_maxStage hb
  omega

/-- What is known of a plan that is accepted. -/
theorem plan_spec {mayConflict : R → R → Bool} {numStages : ℤ}
    (hplan : plan mayConflict numStages infos = some s) (horders : PermutesRange infos.length s.order) :
    1 ≤ numStages ∧ s = (bodyOf mayConflict infos).moveCopies numStages
        ((bodyOf mayConflict infos).settled numStages) ∧
      0 < (bodyOf mayConflict infos).size ∧
        Numbers (bodyOf mayConflict infos).size
          ((bodyOf mayConflict infos).settled numStages).order := by
  rw [plan] at hplan
  split at hplan
  · cases hplan
  rename_i hstages
  split at hplan
  · cases hplan
  obtain ⟨hsize, rfl⟩ := schedule_eq hplan
  refine ⟨by omega, rfl, hsize, settled_numbers numStages ?_⟩
  refine restFirst_of_inj numStages fun p hp q hq heq => horders.inj hp hq ?_
  -- a rotation keeps a collision
  rw [Body.moveCopies]
  split
  · simp only [heq]
  · exact heq

theorem stage_annotate {p : ℕ} : (annotate infos bodies s p).stage = s.stage p := rfl

theorem mem_annotated {b : PipelineBlock R} :
    b ∈ annotated infos bodies s ↔ ∃ p < infos.length, annotate infos bodies s p = b := by
  simp only [annotated, List.mem_map, List.mem_range]

/-- The stages of a planned loop. -/
theorem stage_of_plan {mayConflict : R → R → Bool} {numStages : ℤ}
    (hs : s = (bodyOf mayConflict infos).moveCopies numStages
      ((bodyOf mayConflict infos).settled numStages)) {p : ℕ} (hp : p < infos.length) :
    s.stage p = if (bodyOf mayConflict infos).isFirstStage p then 0
      else if (bodyOf mayConflict infos).Moves numStages ∧
          (bodyOf mayConflict infos).isCopy p = false then numStages - 1
      else numStages := by
  subst hs
  by_cases hmoves : (bodyOf mayConflict infos).Moves numStages
  · rw [moved_stage hmoves hp]
    cases (bodyOf mayConflict infos).isFirstStage p <;>
      cases (bodyOf mayConflict infos).isCopy p <;> simp [hmoves]
  · rw [Body.moveCopies, if_neg (show ¬(_ ∧ _) from hmoves), settled_stage hp]
    simp [hmoves]

/-- A planned loop runs each of its instances once, whatever its extent, exactly when no copies
were moved or all of them are read. -/
theorem planned_runs_once_iff {mayConflict : R → R → Bool} {numStages : ℤ}
    (hplan : plan mayConflict numStages infos = some s) {ordered : List (PipelineBlock R)}
    (hordered : orderedStmts (annotated infos bodies s) = some ordered) (lo : ℤ) :
    (∀ n, (emitted lo n (maxStage (annotated infos bodies s)) ordered).Perm
        (iterations lo n (annotated infos bodies s))) ↔
      ¬((bodyOf mayConflict infos).Moves numStages ∧
        ∃ p, (bodyOf mayConflict infos).UnreadCopy p) := by
  have horders : PermutesRange infos.length s.order := by
    have := orderedStmts_isSome_iff.mp (Option.isSome_iff_exists.mpr ⟨ordered, hordered⟩)
    rw [length_annotated] at this
    refine permutesRange_iff.mpr fun k hk => ?_
    simpa only [annotated, annotate, List.mem_map, List.mem_range, exists_exists_and_eq_and] using
      this k hk
  obtain ⟨hstages, hs, hsize, hnumbers⟩ := plan_spec hplan horders
  have hstage := fun p hp => stage_of_plan hs (p := p) hp
  have hpositive : ∀ b ∈ annotated infos bodies s, 0 ≤ b.stage := by
    intro b hb
    obtain ⟨p, hp, rfl⟩ := mem_annotated.mp hb
    rw [stage_annotate, hstage p hp]
    split_ifs <;> omega
  obtain ⟨hperm, hsorted⟩ := orderedStmts_spec hordered
  rw [forall_congr' fun n => emitted_perm_iff lo n
    (fun b hb => ⟨hpositive b hb, stage_le_maxStage hb⟩) hperm hsorted]
  refine ⟨fun h => ?_, fun h n => .inr (.inr ?_)⟩
  · rintro ⟨hmoves, p, hp, hcopy, hlast⟩
    obtain ⟨q, hq, hother⟩ := exists_not_copy_of_moves hmoves hsize hnumbers
    have hqlast : (bodyOf mayConflict infos).isFirstStage q = false := by
      by_contra hnot
      rw [isCopy_of_isFirstStage (by simpa using hnot)] at hother
      cases hother
    -- the copy is in the last stage, what is no copy in the one before
    have hpstage : s.stage p = numStages := by
      rw [hstage p hp, hlast, hcopy]
      simp
    have hqstage : s.stage q = numStages - 1 := by
      rw [hstage q hq, hqlast, hother]
      simp [hmoves]
    have hbig : s.stage p ≤ maxStage (annotated infos bodies s) :=
      stage_le_maxStage (mem_annotated.mpr ⟨p, hp, rfl⟩)
    have htwo := hmoves.2
    rcases h 1 with h | h | h
    · omega
    · omega
    · have hqs : s.stage q = 0 ∨ s.stage q = maxStage (annotated infos bodies s) :=
        h _ (mem_annotated.mpr ⟨q, hq, rfl⟩)
      omega
  · by_cases hmoves : (bodyOf mayConflict infos).Moves numStages
    · refine stage_cases_of_two (M := numStages - 1) (by omega) fun b hb => ?_
      obtain ⟨p, hp, rfl⟩ := mem_annotated.mp hb
      rw [stage_annotate, hstage p hp]
      cases hfirst : (bodyOf mayConflict infos).isFirstStage p with
      | true => exact .inl rfl
      | false =>
        cases hcopy : (bodyOf mayConflict infos).isCopy p with
        | true => exact absurd ⟨hmoves, p, hp, hcopy, hfirst⟩ h
        | false => exact .inr (by simp [hmoves])
    · refine stage_cases_of_two (M := numStages) (by omega) fun b hb => ?_
      obtain ⟨p, hp, rfl⟩ := mem_annotated.mp hb
      rw [stage_annotate, hstage p hp]
      cases (bodyOf mayConflict infos).isFirstStage p with
      | true => exact .inl rfl
      | false => exact .inr (by simp [hmoves])

end

/-! ## A loop from end to end -/

/-- What `copyThenAdd` does, for the planner. -/
def copyThenAddInfo : List (StageInfo Buffer Unit) :=
  [⟨[⟨⟨0, [8]⟩, ()⟩], [⟨⟨1, [1]⟩, ()⟩], true, none⟩,
    ⟨[⟨⟨2, [1]⟩, ()⟩, ⟨⟨1, [1]⟩, ()⟩], [⟨⟨2, [1]⟩, ()⟩], false, none⟩]

/-- Its plan. -/
def copyThenAddSlots : Slots :=
  let body := bodyOf (fun _ _ => true) copyThenAddInfo
  body.moveCopies 2 (body.settled 2)

/-- `copyThenAdd` with the stages of the plan. -/
def plannedCopyThenAdd : PipelinedFor Unit where
  loop := copyThenAdd.loop
  predicateCondition := none
  pipelineAllocs := copyThenAdd.pipelineAllocs
  info := annotated copyThenAddInfo (fun p => if p = 0 then copyBlock.body else addBlock.body)
    copyThenAddSlots

theorem plannedCopyThenAdd_runs_once : ∃ ordered,
    plan (fun _ _ => true) 2 copyThenAddInfo = some copyThenAddSlots ∧
    orderedStmts plannedCopyThenAdd.info = some ordered ∧
    ∀ n, (emitted 0 n (maxStage plannedCopyThenAdd.info) ordered).Perm
      (iterations 0 n plannedCopyThenAdd.info) := by
  have hplan : plan (fun _ _ => true) 2 copyThenAddInfo = some copyThenAddSlots := rfl
  have hordered : orderedStmts plannedCopyThenAdd.info = some _ := rfl
  refine ⟨_, hplan, hordered, (planned_runs_once_iff hplan hordered 0).mpr ?_⟩
  rintro ⟨-, p, hp, hcopy, hlast⟩
  have : p < 2 := hp
  obtain rfl | rfl : p = 0 ∨ p = 1 := by omega
  · cases hlast
  · cases hcopy

end TileLangNpuir.Pipeline
