import TileLangNpuir.Lib.Layers
import TileLangNpuir.Pipeline.Emitted
import Mathlib.Data.List.Perm.Subperm

/-!
# Rounds and iterations

The emitted loops run the instances of the original loop by their rounds: each of them once,
unless the loop is shorter than the pipeline and a block stands between the first stage and
the last one.
-/

namespace TileLangNpuir.Pipeline

open Tir

variable {R : Type}

/-- An instance runs in an earlier round than another, or before it in the same round. -/
def Sooner (j k : ℤ × PipelineBlock R) : Prop :=
  j.1 + j.2.stage < k.1 + k.2.stage ∨
    (j.1 + j.2.stage = k.1 + k.2.stage ∧ j.2.order < k.2.order)

theorem Sooner.asymm {j k : ℤ × PipelineBlock R} (h : Sooner j k) : ¬Sooner k j := by
  rcases h with h | ⟨h, ho⟩
  · rintro (h' | ⟨h', -⟩) <;> omega
  · rintro (h' | ⟨-, ho'⟩) <;> omega

/-! ## The order of the blocks -/

theorem le_foldl_max_stage (info : List (PipelineBlock R)) (n : ℤ) :
    n ≤ info.foldl (fun n b => max n b.stage) n ∧
      ∀ b ∈ info, b.stage ≤ info.foldl (fun n b => max n b.stage) n := by
  induction info generalizing n with
  | nil => exact ⟨le_rfl, fun b hb => absurd hb List.not_mem_nil⟩
  | cons a info ih =>
    obtain ⟨hn, hall⟩ := ih (max n a.stage)
    refine ⟨(le_max_left n a.stage).trans hn, fun b hb => ?_⟩
    rcases List.mem_cons.mp hb with rfl | hb
    · exact (le_max_right n b.stage).trans hn
    · exact hall b hb

theorem stage_le_maxStage {info : List (PipelineBlock R)} {b : PipelineBlock R} (hb : b ∈ info) :
    b.stage ≤ maxStage info := (le_foldl_max_stage info (-1)).2 b hb

theorem orderedStmts_forall₂ {info ordered : List (PipelineBlock R)}
    (h : orderedStmts info = some ordered) :
    List.Forall₂ (fun (k : ℕ) b => b ∈ info ∧ b.order = k) (List.range info.length) ordered := by
  refine (mapM_eq_some_iff.mp h).imp fun k b hb => ⟨List.mem_of_find?_eq_some hb, ?_⟩
  simpa using List.find?_some hb

theorem map_order_of_spec {info : List (PipelineBlock R)} {ks : List ℕ}
    {ordered : List (PipelineBlock R)}
    (h : List.Forall₂ (fun (k : ℕ) b => b ∈ info ∧ b.order = k) ks ordered) :
    ordered.map PipelineBlock.order = ks.map fun k : ℕ => (k : ℤ) := by
  induction h with
  | nil => rfl
  | cons hb _ ih => rw [List.map_cons, List.map_cons, hb.2, ih]

/-- `ordered_stmts_` has the blocks sorted by their order. -/
theorem orderedStmts_spec {info ordered : List (PipelineBlock R)}
    (h : orderedStmts info = some ordered) :
    ordered.Perm info ∧ ordered.Pairwise fun p q => p.order < q.order := by
  have hspec := orderedStmts_forall₂ h
  have hsorted : ordered.Pairwise fun p q => p.order < q.order := by
    rw [← List.pairwise_map (f := PipelineBlock.order) (R := (· < ·)), map_order_of_spec hspec]
    exact List.pairwise_lt_range.map _ fun a b hab => Int.ofNat_lt.mpr hab
  have hnodup : ordered.Nodup := hsorted.imp fun hlt heq => by
    rw [heq] at hlt
    exact lt_irrefl _ hlt
  have hsub : ordered ⊆ info := by
    intro b hb
    obtain ⟨k, -, hk, -⟩ := exists_of_forall₂_right hspec hb
    exact hk
  have hlen : info.length ≤ ordered.length := by
    rw [← hspec.length_eq, List.length_range]
  exact ⟨(hnodup.subperm hsub).perm_of_length_le hlen, hsorted⟩

/-! ## The instances -/

/-- The instances of the loop, iteration after iteration. -/
def iterations (lo n : ℤ) (info : List (PipelineBlock R)) : List (ℤ × PipelineBlock R) :=
  (span lo n.toNat).flatMap fun i => info.map fun b => (i, b)

/-- The instances of prologue, body and epilogue. -/
def emitted (lo n maxStage : ℤ) (ordered : List (PipelineBlock R)) : List (ℤ × PipelineBlock R) :=
  (span lo maxStage.toNat).flatMap (PipelinedFor.round lo n ordered) ++
    ((span (lo + maxStage) (n - maxStage).toNat).flatMap (PipelinedFor.round lo n ordered) ++
      (span (lo + n) maxStage.toNat).flatMap (PipelinedFor.round lo n ordered))

/-- An instance comes before another in the loop. -/
def Earlier (info : List (PipelineBlock R)) (j k : ℤ × PipelineBlock R) : Prop :=
  j.1 < k.1 ∨ (j.1 = k.1 ∧ [j.2, k.2].Sublist info)

section

variable {lo n : ℤ} {info ordered : List (PipelineBlock R)}

theorem mem_round {t : ℤ} {j : ℤ × PipelineBlock R} :
    j ∈ PipelinedFor.round lo n ordered t ↔
      j.2 ∈ ordered ∧ lo ≤ j.1 ∧ j.1 < lo + n ∧ j.1 + j.2.stage = t := by
  simp only [PipelinedFor.round, List.mem_filterMap, Option.ite_none_right_eq_some, Option.some_inj]
  refine ⟨fun ⟨b, hb, hin, hj⟩ => ?_, fun ⟨hj, hlo, hn, ht⟩ => ⟨j.2, hj, ?_, ?_⟩⟩
  · subst hj
    exact ⟨hb, hin.1, hin.2, by simp⟩
  · omega
  · rw [← ht, add_sub_cancel_right]

theorem mem_rounds {first : ℤ} {count : ℕ} {j : ℤ × PipelineBlock R} :
    j ∈ (span first count).flatMap (PipelinedFor.round lo n ordered) ↔
      (j.2 ∈ ordered ∧ lo ≤ j.1 ∧ j.1 < lo + n) ∧
        first ≤ j.1 + j.2.stage ∧ j.1 + j.2.stage < first + count := by
  simp only [List.mem_flatMap, mem_round, mem_span]
  refine ⟨fun ⟨t, ht, hj, hlo, hn, hjt⟩ => ?_, fun ⟨⟨hj, hlo, hn⟩, ht⟩ => ⟨_, ht, hj, hlo, hn, rfl⟩⟩
  exact ⟨⟨hj, hlo, hn⟩, by omega⟩

theorem mem_iterations {j : ℤ × PipelineBlock R} :
    j ∈ iterations lo n info ↔ j.2 ∈ info ∧ lo ≤ j.1 ∧ j.1 < lo + n := by
  simp only [iterations, List.mem_flatMap, List.mem_map, mem_span]
  refine ⟨fun ⟨i, hi, b, hb, hj⟩ => ?_, fun ⟨hj, hlo, hn⟩ => ⟨j.1, by omega, j.2, hj, rfl⟩⟩
  subst hj
  exact ⟨hb, by omega⟩

theorem round_pairwise (hsorted : ordered.Pairwise fun p q => p.order < q.order) (t : ℤ) :
    (PipelinedFor.round lo n ordered t).Pairwise Sooner := by
  refine hsorted.filterMap _ fun p q hpq j hj k hk => ?_
  obtain ⟨-, hj⟩ := Option.ite_none_right_eq_some.mp hj
  obtain ⟨-, hk⟩ := Option.ite_none_right_eq_some.mp hk
  cases hj
  cases hk
  exact .inr ⟨by simp, hpq⟩

theorem rounds_pairwise (hsorted : ordered.Pairwise fun p q => p.order < q.order) (first : ℤ)
    (count : ℕ) :
    ((span first count).flatMap (PipelinedFor.round lo n ordered)).Pairwise Sooner := by
  rw [List.pairwise_flatMap]
  refine ⟨fun t _ => round_pairwise hsorted t, (pairwise_span first count).imp fun hlt j hj k hk => ?_⟩
  rw [mem_round] at hj hk
  exact .inl (by omega)

theorem iterations_pairwise (lo n : ℤ) (info : List (PipelineBlock R)) :
    (iterations lo n info).Pairwise (Earlier info) := by
  rw [iterations, List.pairwise_flatMap]
  refine ⟨fun i _ => ?_, (pairwise_span lo _).imp fun hlt j hj k hk => ?_⟩
  · rw [List.pairwise_map, List.pairwise_iff_forall_sublist]
    exact fun hsub => .inr ⟨rfl, hsub⟩
  · obtain ⟨b, -, rfl⟩ := List.mem_map.mp hj
    obtain ⟨c, -, rfl⟩ := List.mem_map.mp hk
    exact .inl hlt

theorem not_sublist_swap {l : List (PipelineBlock R)} (hl : l.Nodup) {a b : PipelineBlock R}
    (h : [a, b].Sublist l) : ¬[b, a].Sublist l := by
  induction l with
  | nil => cases h
  | cons c l ih =>
    rw [List.nodup_cons] at hl
    intro h'
    cases h with
    | cons _ h =>
      cases h' with
      | cons _ h' => exact ih hl.2 h h'
      | cons_cons _ h' => exact hl.1 (h.subset (List.mem_cons_of_mem a List.mem_cons_self))
    | cons_cons _ h =>
      cases h' with
      | cons _ h' => exact hl.1 (h'.subset (List.mem_cons_of_mem b List.mem_cons_self))
      | cons_cons _ h' => exact hl.1 (h.subset List.mem_cons_self)

theorem Earlier.asymm (hl : info.Nodup) {j k : ℤ × PipelineBlock R} (h : Earlier info j k) :
    ¬Earlier info k j := by
  rcases h with h | ⟨h, hsub⟩
  · rintro (h' | ⟨h', -⟩) <;> omega
  · rintro (h' | ⟨-, hsub'⟩)
    · omega
    · exact not_sublist_swap hl hsub hsub'

/-! ## Each instance once -/

/-- The loop is long enough for the pipeline, or no block stands between the first stage and the
last one. -/
def RunsOnce (n maxStage : ℤ) (info : List (PipelineBlock R)) : Prop :=
  maxStage ≤ n ∨ n ≤ 0 ∨ ∀ b ∈ info, b.stage = 0 ∨ b.stage = maxStage

variable (lo) in
theorem emitted_pairwise {maxStage : ℤ} (hstages : ∀ b ∈ ordered, 0 ≤ b.stage ∧ b.stage ≤ maxStage)
    (hsorted : ordered.Pairwise fun p q => p.order < q.order) (h : RunsOnce n maxStage ordered) :
    (emitted lo n maxStage ordered).Pairwise Sooner := by
  rw [emitted, List.pairwise_append, List.pairwise_append]
  refine ⟨rounds_pairwise hsorted _ _, ⟨rounds_pairwise hsorted _ _, rounds_pairwise hsorted _ _,
    fun j hj k hk => ?_⟩, fun j hj k hk => ?_⟩
  · rw [mem_rounds] at hj hk
    exact .inl (by omega)
  · rw [mem_rounds] at hj
    have hj' := hstages j.2 hj.1.1
    rcases List.mem_append.mp hk with hk | hk
    · rw [mem_rounds] at hk
      exact .inl (by omega)
    · rw [mem_rounds] at hk
      have hshort : j.2.stage = 0 ∨ j.2.stage = maxStage ∨ maxStage ≤ n := by
        rcases h with h | h | h
        · exact .inr (.inr h)
        · omega
        · exact (h j.2 hj.1.1).imp_right .inl
      exact .inl (by omega)

theorem mem_emitted {maxStage : ℤ} (hstages : ∀ b ∈ ordered, 0 ≤ b.stage ∧ b.stage ≤ maxStage)
    {j : ℤ × PipelineBlock R} :
    j ∈ emitted lo n maxStage ordered ↔ j.2 ∈ ordered ∧ lo ≤ j.1 ∧ j.1 < lo + n := by
  simp only [emitted, List.mem_append, mem_rounds]
  refine ⟨fun h => ?_, fun h => ?_⟩
  · rcases h with h | h | h <;> exact h.1
  · have hj := hstages j.2 h.1
    by_cases hfill : j.1 + j.2.stage < lo + maxStage
    · exact .inl ⟨h, by omega⟩
    · by_cases hbody : j.1 + j.2.stage < lo + n
      · exact .inr (.inl ⟨h, by omega⟩)
      · exact .inr (.inr ⟨h, by omega⟩)

variable (lo n) in
/-- The emitted loops run each instance once exactly when the loop is long enough or no block
stands in between. -/
theorem emitted_perm_iff {maxStage : ℤ} (hstages : ∀ b ∈ info, 0 ≤ b.stage ∧ b.stage ≤ maxStage)
    (hperm : ordered.Perm info) (hsorted : ordered.Pairwise fun p q => p.order < q.order) :
    (emitted lo n maxStage ordered).Perm (iterations lo n info) ↔ RunsOnce n maxStage info := by
  have hordered : ∀ b ∈ ordered, 0 ≤ b.stage ∧ b.stage ≤ maxStage := fun b hb =>
    hstages b (hperm.mem_iff.mp hb)
  have hinfo : info.Nodup := by
    refine hperm.nodup_iff.mp (hsorted.imp fun hlt heq => ?_)
    rw [heq] at hlt
    exact lt_irrefl _ hlt
  have hiterations : (iterations lo n info).Nodup :=
    (iterations_pairwise lo n info).imp fun h heq => by
      subst heq
      exact h.asymm hinfo h
  refine ⟨fun h => ?_, fun h => ?_⟩
  · by_contra hnot
    simp only [RunsOnce, not_or, not_le, not_forall] at hnot
    obtain ⟨hshort, hpos, b, hb, hfirst, hlast⟩ := hnot
    have hstage := hstages b hb
    -- this iteration's instance is in the prologue, and in the epilogue too
    obtain ⟨k, hk⟩ : ∃ k, 0 ≤ k ∧ k < n ∧ n ≤ k + b.stage ∧ k + b.stage < maxStage :=
      ⟨max 0 (n - b.stage), by omega⟩
    have hmem : (b ∈ ordered ∧ lo ≤ lo + k ∧ lo + k < lo + n) :=
      ⟨hperm.mem_iff.mpr hb, by omega⟩
    have hnodup : (emitted lo n maxStage ordered).Nodup := h.nodup_iff.mpr hiterations
    rw [emitted, List.nodup_append] at hnodup
    refine hnodup.2.2 (lo + k, b) (mem_rounds.mpr ⟨hmem, by simp only []; omega⟩) (lo + k, b)
      (List.mem_append_right _ (mem_rounds.mpr ⟨hmem, by simp only []; omega⟩)) rfl
  · have honce : RunsOnce n maxStage ordered := by
      rcases h with h | h | h
      · exact .inl h
      · exact .inr (.inl h)
      · exact .inr (.inr fun b hb => h b (hperm.mem_iff.mp hb))
    have hemitted : (emitted lo n maxStage ordered).Nodup :=
      (emitted_pairwise lo hordered hsorted honce).imp fun h heq => by
        subst heq
        exact h.asymm h
    refine (List.perm_ext_iff_of_nodup hemitted hiterations).mpr fun j => ?_
    rw [mem_emitted hordered, mem_iterations, hperm.mem_iff]

end

/-! ## What runs -/

namespace PipelinedFor

variable {K : PipelinedFor R} {mayConflict : R → R → Bool} {env : Env} {lo n : ℤ} {A : Analyzer}

/-- The variables of the three loops. -/
def AllFresh (K : PipelinedFor R) (newVars : Var × Var × Var) : Prop :=
  K.Fresh newVars.1 ∧ K.Fresh newVars.2.1 ∧ K.Fresh newVars.2.2

theorem mem_vars_add {a b : Expr} {y : Var} : y ∈ (a.add b).vars ↔ y ∈ a.vars ∨ y ∈ b.vars := by
  simp only [Expr.add, Expr.binary, Expr.vars, Exprs.vars, List.append_nil, List.mem_append]

theorem bounds_prologue (hmin : ∀ m, K.loop.min.eval env m = lo)
    (hextent : ∀ m, K.loop.extent.eval env m = n) :
    Bounds K env lo n K.loop.min (K.loop.min.add (.int (maxStage K.info))) lo
      (lo + maxStage K.info) where
  min := hmin
  extent := hextent
  evalStart := hmin
  evalStop m := by rw [eval_add, hmin, eval_int]
  varsStart _ hy := .inl hy
  varsStop y hy := (mem_vars_add.mp hy).elim .inl fun h => absurd h List.not_mem_nil

theorem bounds_epilogue (hmin : ∀ m, K.loop.min.eval env m = lo)
    (hextent : ∀ m, K.loop.extent.eval env m = n) :
    Bounds K env lo n (K.loop.min.add K.loop.extent)
      ((K.loop.min.add K.loop.extent).add (.int (maxStage K.info))) (lo + n)
      (lo + n + maxStage K.info) where
  min := hmin
  extent := hextent
  evalStart m := by rw [eval_add, hmin, hextent]
  evalStop m := by rw [eval_add, eval_add, hmin, hextent, eval_int]
  varsStart _ hy := mem_vars_add.mp hy
  varsStop y hy := (mem_vars_add.mp hy).elim mem_vars_add.mp fun h => absurd h List.not_mem_nil

theorem bounds_body (hmin : ∀ m, K.loop.min.eval env m = lo)
    (hextent : ∀ m, K.loop.extent.eval env m = n) :
    Bounds K env lo n (K.loop.min.add (.int (maxStage K.info))) (K.loop.min.add K.loop.extent)
      (lo + maxStage K.info) (lo + n) where
  min := hmin
  extent := hextent
  evalStart := (bounds_prologue hmin hextent).evalStop
  evalStop := (bounds_epilogue hmin hextent).evalStart
  varsStart := (bounds_prologue hmin hextent).varsStop
  varsStop := (bounds_epilogue hmin hextent).varsStart

/-- In the body no check is needed: every block has an iteration to run for. -/
theorem inBounds_of_body {ordered : List (PipelineBlock R)} (hmem : ∀ b ∈ ordered, b ∈ K.info)
    (hstages : ∀ b ∈ K.info, 0 ≤ b.stage) (t : ℤ) (h₁ : lo + maxStage K.info ≤ t)
    (h₂ : t < lo + n) : ∀ b ∈ ordered, lo ≤ t - b.stage ∧ t - b.stage < lo + n := by
  intro b hb
  have h₃ := stage_le_maxStage (hmem b hb)
  have h₄ := hstages b (hmem b hb)
  omega

theorem run_emitAll (hscoped : K.WellScoped) (haddr : K.Addressed mayConflict lo)
    {newVars : Var × Var × Var} (hfresh : K.AllFresh newVars)
    (hmin : ∀ m, K.loop.min.eval env m = lo) (hextent : ∀ m, K.loop.extent.eval env m = n)
    {ordered : List (PipelineBlock R)} (hmem : ∀ b ∈ ordered, b ∈ K.info)
    (hstages : ∀ b ∈ K.info, 0 ≤ b.stage) (m : Mem) :
    ((K.rewriter A mayConflict).emitAll ordered newVars).run env m =
      runAllOf (K.runVersion mayConflict env lo) (emitted lo n (maxStage K.info) ordered) m := by
  have hfirst := run_emitImpl A true hscoped haddr (bounds_prologue hmin hextent) hfresh.1
    hmem (fun hf => Bool.noConfusion hf)
  have hsecond := run_emitImpl A false hscoped haddr (bounds_body hmin hextent) hfresh.2.1
    hmem (fun _ => inBounds_of_body hmem hstages)
  have hthird := run_emitImpl A true hscoped haddr (bounds_epilogue hmin hextent) hfresh.2.2
    hmem (fun hf => Bool.noConfusion hf)
  rw [show lo + maxStage K.info - lo = maxStage K.info by omega] at hfirst
  rw [show lo + n - (lo + maxStage K.info) = n - maxStage K.info by omega] at hsecond
  rw [show lo + n + maxStage K.info - (lo + n) = maxStage K.info by omega] at hthird
  rw [emitted, runAllOf_append, runAllOf_append, ← hfirst, ← hsecond, ← hthird]
  rfl

end PipelinedFor

end TileLangNpuir.Pipeline
