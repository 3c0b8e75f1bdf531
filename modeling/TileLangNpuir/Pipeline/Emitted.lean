import TileLangNpuir.Pipeline.Versions

/-!
# The emitted loops

What prologue, body and epilogue run: lists of instances, an instance being a block with the
iteration it runs for. Each runs on the versions of its iteration.
-/

namespace TileLangNpuir.Pipeline

open Tir

/-! ## Sequences -/

theorem run_seqAll (env : Env) (ss : List Stmt) (m : Mem) :
    (seqAll ss).run env m = runAllOf (fun s : Stmt => s.run env) ss m := by
  induction ss generalizing m with
  | nil => rfl
  | cons s ss ih => rw [seqAll, Stmt.run, ih, runAllOf_cons]

section

variable (remap : Buffer → Option Buffer) (loop : PipelineLoop)

theorem binders_rewriteStmt (s : Stmt) : (rewriteStmt remap loop s).binders = s.binders := by
  induction s with
  | nop => rfl
  | seq s t ihs iht => rw [rewriteStmt, Stmt.binders, Stmt.binders, ihs, iht]
  | store b value indices =>
    rw [rewriteStmt]
    cases remap b <;> rfl
  | call f ptrs args => rfl
  | ifThen c body ih => exact ih
  | ifThenElse c s t ihs iht => rw [rewriteStmt, Stmt.binders, Stmt.binders, ihs, iht]
  | forLoop x min extent body ih => rw [rewriteStmt, Stmt.binders, Stmt.binders, ih]
  | letStmt x value body ih => rw [rewriteStmt, Stmt.binders, Stmt.binders, ih]

end

variable {R : Type}

/-- The sequence a `filterMap` leaves, where each statement runs an instance or nothing. -/
theorem run_filterMap {ι : Type} {f : ι → Mem → Mem} {env : Env} {bs : List (PipelineBlock R)}
    {rewrite : PipelineBlock R → Option Stmt} {inst : PipelineBlock R → Option ι}
    (hnone : ∀ b ∈ bs, rewrite b = none → inst b = none)
    (hsome : ∀ b ∈ bs, ∀ s, rewrite b = some s → ∀ m,
      s.run env m = runAllOf f (inst b).toList m) (m : Mem) :
    runAllOf (fun s : Stmt => s.run env) (bs.filterMap rewrite) m =
      runAllOf f (bs.filterMap inst) m := by
  induction bs generalizing m with
  | nil => rfl
  | cons b bs ih =>
    have ih := ih (fun c hc => hnone c (List.mem_cons_of_mem b hc))
      fun c hc => hsome c (List.mem_cons_of_mem b hc)
    have hinst : (b :: bs).filterMap inst = (inst b).toList ++ bs.filterMap inst := by
      cases hb : inst b with
      | none => rw [List.filterMap_cons_none hb, Option.toList_none, List.nil_append]
      | some j => rw [List.filterMap_cons_some hb, Option.toList_some, List.singleton_append]
    rw [hinst, runAllOf_append]
    cases hb : rewrite b with
    | none =>
      rw [List.filterMap_cons_none hb, hnone b List.mem_cons_self hb, Option.toList_none,
        runAllOf_nil, ih]
    | some s =>
      rw [List.filterMap_cons_some hb, runAllOf_cons, hsome b List.mem_cons_self s hb m, ih]

namespace PipelinedFor

variable (K : PipelinedFor R)

/-- The buffers that occur. -/
def buffers : List Buffer :=
  K.pipelineAllocs ++ (K.predicateCondition.toList.flatMap Expr.loads ++
    K.info.flatMap fun b => b.body.buffers ++
      (b.reads.map BufferRegion.buffer ++ b.writes.map BufferRegion.buffer))

/-- The bounds of the loop are the same all along. -/
structure WellScoped : Prop where
  min_loads : K.loop.min.loads = []
  extent_loads : K.loop.extent.loads = []
  loopVar_min : K.loop.loopVar ∉ K.loop.min.vars
  binders : ∀ b ∈ K.info, ∀ y ∈ b.body.binders,
    y ≠ K.loop.loopVar ∧ y ∉ K.loop.min.vars ∧ y ∉ K.loop.extent.vars

/-- `copy_with_suffix` gives a variable that occurs nowhere. -/
structure Fresh (v : Var) : Prop where
  loopVar : v ≠ K.loop.loopVar
  min : v ∉ K.loop.min.vars
  extent : v ∉ K.loop.extent.vars
  condition : ∀ c ∈ K.predicateCondition, v ∉ c.vars
  bodies : ∀ b ∈ K.info, v ∉ b.body.vars ∧ v ∉ b.body.binders

variable (mayConflict : R → R → Bool)

/-- Where the version of a buffer begins, `k` iterations after the first. -/
def skipOf (k : ℤ) (d : Var) : ℤ :=
  ((K.pipelineAllocs.find? fun a => a.data = d).map fun a =>
    if 1 < versions mayConflict K.info a then
      k.fmod (versions mayConflict K.info a) * a.shape.prod
    else 0).getD 0

/-- A buffer of the pipeline is known by its variable, the condition reads none of them, and where
one with versions is accessed through a pointer, its versions divide the minimum of the loop. -/
structure Addressed (lo : ℤ) : Prop where
  unaliased : ∀ a ∈ K.pipelineAllocs, ∀ c ∈ K.buffers, c.data = a.data → c = a
  condition : ∀ c ∈ K.predicateCondition, ∀ d ∈ c.loads, d ∉ K.pipelineAllocs
  ptrs : ∀ b ∈ K.info, ∀ p ∈ b.body.ptrs, p.buffer ∈ K.pipelineAllocs →
    1 < versions mayConflict K.info p.buffer → versions mayConflict K.info p.buffer ∣ lo

/-- An instance: the block, for the iteration. -/
def runInstance (env : Env) (j : ℤ × PipelineBlock R) : Mem → Mem :=
  (guardedBy K.predicateCondition j.2.body).run (env.set K.loop.loopVar j.1)

/-- An instance on the versions of its iteration. -/
def runVersion (env : Env) (lo : ℤ) (j : ℤ × PipelineBlock R) : Mem → Mem :=
  relocate (moveUp (K.skipOf mayConflict (j.1 - lo))) (K.runInstance env j)

variable {K mayConflict}

theorem mem_buffers_of_body {b : PipelineBlock R} (hb : b ∈ K.info) {c : Buffer}
    (hc : c ∈ b.body.buffers) : c ∈ K.buffers :=
  List.mem_append_right _ (List.mem_append_right _
    (List.mem_flatMap.mpr ⟨b, hb, List.mem_append_left _ hc⟩))

theorem mem_buffers_of_condition {c : Expr} (hc : c ∈ K.predicateCondition) {d : Buffer}
    (hd : d ∈ c.loads) : d ∈ K.buffers :=
  List.mem_append_right _ (List.mem_append_left _
    (List.mem_flatMap.mpr ⟨c, Option.mem_toList.mpr hc, hd⟩))

theorem skipOf_of_notMem {lo : ℤ} (h : K.Addressed mayConflict lo) (k : ℤ) {c : Buffer}
    (hc : c ∈ K.buffers) (hnot : c ∉ K.pipelineAllocs) : K.skipOf mayConflict k c.data = 0 := by
  have hfind : (K.pipelineAllocs.find? fun a => a.data = c.data) = none := by
    refine List.find?_eq_none.mpr fun a ha hdata => hnot ?_
    exact h.unaliased a ha c hc (of_decide_eq_true hdata).symm ▸ ha
  rw [skipOf, hfind]
  rfl

theorem skipOf_of_mem {lo : ℤ} (h : K.Addressed mayConflict lo) (k : ℤ) {c : Buffer}
    (hc : c ∈ K.pipelineAllocs) : K.skipOf mayConflict k c.data =
      if 1 < versions mayConflict K.info c then
        k.fmod (versions mayConflict K.info c) * c.shape.prod
      else 0 := by
  have hfind : (K.pipelineAllocs.find? fun a => a.data = c.data) = some c := by
    cases hf : K.pipelineAllocs.find? fun a => a.data = c.data with
    | none => exact absurd (decide_eq_true rfl) (List.find?_eq_none.mp hf c hc)
    | some a =>
      have ha := List.mem_of_find?_eq_some hf
      have hdata : a.data = c.data := by simpa using List.find?_some hf
      rw [h.unaliased a ha c (List.mem_append_left _ hc) hdata.symm]
  rw [skipOf, hfind]
  rfl

theorem skips_of_addressed {lo : ℤ} (h : K.Addressed mayConflict lo) (k : ℤ) {c : Buffer}
    (hc : c ∈ K.buffers) :
    Skips (bufferRemap mayConflict K.info K.pipelineAllocs) (K.skipOf mayConflict k) k c := by
  rw [Skips, bufferRemap]
  by_cases hmem : c ∈ K.pipelineAllocs
  · rw [skipOf_of_mem h k hmem]
    by_cases hv : 1 < versions mayConflict K.info c
    · rw [if_pos ⟨hmem, hv⟩, if_pos hv]
      exact .inr ⟨_, rfl, rfl⟩
    · rw [if_neg fun h => hv h.2, if_neg hv]
      exact .inl ⟨rfl, rfl⟩
  · rw [if_neg fun h => hmem h.1, skipOf_of_notMem h k hc hmem]
    exact .inl ⟨rfl, rfl⟩

theorem ptrSkips_of_addressed {lo : ℤ} (h : K.Addressed mayConflict lo) {b : PipelineBlock R}
    (hb : b ∈ K.info) (i : ℤ) {p : AccessPtr} (hp : p ∈ b.body.ptrs) :
    PtrSkips (bufferRemap mayConflict K.info K.pipelineAllocs) i lo p := by
  intro n hn
  rw [bufferRemap] at hn
  by_cases hc : p.buffer ∈ K.pipelineAllocs ∧ 1 < versions mayConflict K.info p.buffer
  · rw [if_pos hc, Option.some_inj, rewriteAllocBuffer, rewriteAllocBuffer, Buffer.mk.injEq,
      List.cons.injEq] at hn
    obtain ⟨c, rfl⟩ : n ∣ lo := hn.2.1 ▸ h.ptrs b hb p hp hc.1 hc.2
    have hpos : 0 ≤ n := by
      rw [← hn.2.1]
      omega
    rw [Int.fmod_eq_emod_of_nonneg _ hpos, Int.fmod_eq_emod_of_nonneg _ hpos,
      Int.sub_mul_emod_self_left]
  · rw [if_neg hc] at hn
    cases hn

/-! ## One instance -/

theorem relocate_ifThen (e : Equiv.Perm Cell) (c : Mem → ℤ) (f : Mem → Mem) (m : Mem) :
    relocate e (fun m => if c m ≠ 0 then f m else m) m =
      if c (fun x => m (e x)) ≠ 0 then relocate e f m else m := by
  funext y
  simp only [relocate]
  split
  · rfl
  · exact congrArg m (e.apply_symm_apply y)

/-- The block as it is emitted runs the instance that its index stands for. -/
theorem run_subst_rewriteStmt {lo : ℤ} (hscoped : K.WellScoped) (haddr : K.Addressed mayConflict lo)
    {env env' : Env} (hlo : ∀ m, K.loop.min.eval env m = lo) {v : Var} (hfresh : K.Fresh v)
    (henv : ∀ x, x ≠ v → env' x = env x) {b : PipelineBlock R} (hb : b ∈ K.info) {index : Expr}
    {i : ℤ} (hindex : ∀ m, index.eval env' m = i)
    (hvars : ∀ y ∈ index.vars, y = v ∨ y ∈ K.loop.min.vars ∨ y ∈ K.loop.extent.vars) (m : Mem) :
    (guardedBy (K.predicateCondition.map (Expr.subst K.loop.loopVar index))
        ((rewriteStmt (bufferRemap mayConflict K.info K.pipelineAllocs) K.loop b.body).subst
          K.loop.loopVar index)).run env' m = K.runVersion mayConflict env lo (i, b) m := by
  have hset : ∀ x, x ≠ v → env'.set K.loop.loopVar i x = env.set K.loop.loopVar i x := by
    intro x hx
    simp only [Env.set, henv x hx]
  have hat : AtIteration K.loop i lo (env'.set K.loop.loopVar i) := by
    refine ⟨env'.set_self K.loop.loopVar i, fun m => ?_⟩
    rw [← hlo m]
    refine K.loop.min.eval_congr (fun x hx => ?_) fun _ _ _ => rfl
    rw [Env.set_of_ne _ _ _ (ne_of_mem_of_not_mem hx hscoped.loopVar_min)]
    exact henv x (ne_of_mem_of_not_mem hx hfresh.min)
  have hfits : Fits K.loop.loopVar index
      (rewriteStmt (bufferRemap mayConflict K.info K.pipelineAllocs) K.loop b.body) := by
    refine ⟨fun hx => ?_, fun y hy hbound => ?_⟩
    · rw [binders_rewriteStmt] at hx
      exact (hscoped.binders b hb _ hx).1 rfl
    · rw [binders_rewriteStmt] at hbound
      rcases hvars y hy with rfl | hy | hy
      · exact (hfresh.bodies b hb).2 hbound
      · exact (hscoped.binders b hb y hbound).2.1 hy
      · exact (hscoped.binders b hb y hbound).2.2 hy
  have hbody : ((rewriteStmt (bufferRemap mayConflict K.info K.pipelineAllocs) K.loop b.body).subst
      K.loop.loopVar index).run env' m =
      relocate (moveUp (K.skipOf mayConflict (i - lo))) (b.body.run (env.set K.loop.loopVar i))
        m := by
    rw [Stmt.run_subst _ hfits hindex, run_rewriteStmt b.body
      (fun y hy => ⟨(hscoped.binders b hb y hy).1, (hscoped.binders b hb y hy).2.1⟩)
      (fun c hc => skips_of_addressed haddr (i - lo) (mem_buffers_of_body hb hc))
      (fun p hp => ptrSkips_of_addressed haddr hb i hp) hat]
    have hrun : b.body.run (env'.set K.loop.loopVar i) = b.body.run (env.set K.loop.loopVar i) := by
      funext m
      exact b.body.run_congr_env
        (fun x hx => hset x (ne_of_mem_of_not_mem hx (hfresh.bodies b hb).1)) m
    rw [hrun]
  rw [runVersion]
  have hinst : K.runInstance env (i, b) =
      (guardedBy K.predicateCondition b.body).run (env.set K.loop.loopVar i) := rfl
  rw [hinst]
  cases hcond : K.predicateCondition with
  | none => exact hbody
  | some c =>
    have hmem : c ∈ K.predicateCondition := hcond
    -- the condition reads no buffer of the pipeline, so it is the same behind the versions
    have hc : (Expr.subst K.loop.loopVar index c).eval env' m =
        c.eval (env.set K.loop.loopVar i) (behind (K.skipOf mayConflict (i - lo)) m) := by
      rw [Expr.eval_subst (hindex m)]
      refine c.eval_congr
        (fun x hx => hset x (ne_of_mem_of_not_mem hx (hfresh.condition c hmem))) fun d hd k => ?_
      rw [behind, moveUp_apply, skipOf_of_notMem haddr _ (mem_buffers_of_condition hmem hd)
        (haddr.condition c hmem d hd), zero_add]
    have hguard : (Stmt.ifThen c b.body).run (env.set K.loop.loopVar i) = fun m =>
        if c.eval (env.set K.loop.loopVar i) m ≠ 0 then b.body.run (env.set K.loop.loopVar i) m
        else m := rfl
    rw [Option.map_some, guardedBy, guardedBy, Stmt.run, hc, hbody, hguard, relocate_ifThen]
    rfl

/-! ## One round -/

variable (K) in
/-- The instances of round `t`: each block for the iteration that is its stage behind, where there
is one. -/
def round (lo n : ℤ) (ordered : List (PipelineBlock R)) (t : ℤ) : List (ℤ × PipelineBlock R) :=
  ordered.filterMap fun b =>
    if lo ≤ t - b.stage ∧ t - b.stage < lo + n then some (t - b.stage, b) else none

/-- The bounds of the loop, and those of the rounds to emit. -/
structure Bounds (K : PipelinedFor R) (env : Env) (lo n : ℤ) (start stop : Expr) (first last : ℤ) :
    Prop where
  min : ∀ m, K.loop.min.eval env m = lo
  extent : ∀ m, K.loop.extent.eval env m = n
  evalStart : ∀ m, start.eval env m = first
  evalStop : ∀ m, stop.eval env m = last
  varsStart : ∀ y ∈ start.vars, y ∈ K.loop.min.vars ∨ y ∈ K.loop.extent.vars
  varsStop : ∀ y ∈ stop.vars, y ∈ K.loop.min.vars ∨ y ∈ K.loop.extent.vars

section

variable {env : Env} {lo n first last : ℤ} {start stop : Expr} {v : Var}

theorem Bounds.set (h : Bounds K env lo n start stop first last) (hfresh : K.Fresh v) (x : ℤ) :
    Bounds K (env.set v x) lo n start stop first last where
  min := eval_set_of_notMem h.min hfresh.min x
  extent := eval_set_of_notMem h.extent hfresh.extent x
  evalStart := eval_set_of_notMem h.evalStart
    (fun hv => (h.varsStart v hv).elim hfresh.min hfresh.extent) x
  evalStop := eval_set_of_notMem h.evalStop
    (fun hv => (h.varsStop v hv).elim hfresh.min hfresh.extent) x
  varsStart := h.varsStart
  varsStop := h.varsStop

variable (mayConflict) in
theorem eval_inbound (h : Bounds K env lo n start stop first last) (A : Analyzer)
    (needBoundCheck : Bool) {skewed : Expr} {m : Mem} {s : ℤ} (hs : skewed.eval env m = s) :
    ((K.rewriter A mayConflict).inbound needBoundCheck skewed).eval env m ≠ 0 ↔
      (needBoundCheck = true → lo ≤ s ∧ s < lo + n) := by
  cases needBoundCheck with
  | false => exact ⟨fun _ hf => Bool.noConfusion hf, fun _ => Int.one_ne_zero⟩
  | true =>
    have hstop : (K.rewriter A mayConflict).stop.eval env m = lo + n := by
      rw [Rewriter.stop, eval_add]
      exact congrArg₂ (· + ·) (h.min m) (h.extent m)
    have hmin : (K.rewriter A mayConflict).loop.min.eval env m = lo := h.min m
    rw [Rewriter.inbound, if_pos rfl, eval_and, eval_le, eval_lt, hstop, hmin, hs]
    exact ⟨fun h _ => h, fun h => h rfl⟩

/-- The environment of a round: the counter of the emitted loop starts at the minimum. -/
def roundEnv (isUnitLoop : Bool) (env : Env) (v : Var) (lo first t : ℤ) : Env :=
  if isUnitLoop then env else env.set v (t - (first - lo))

variable {A : Analyzer} {needBoundCheck : Bool} {b : PipelineBlock R} {t : ℤ}

/-- A block that is left out has nothing to run in the round. -/
theorem not_inBounds_of_rewriteBlock (h : Bounds K env lo n start stop first last)
    (hfresh : K.Fresh v) (ht : first ≤ t ∧ t < last)
    (hnone : (K.rewriter A mayConflict).rewriteBlock start stop v needBoundCheck b = none) :
    ¬(lo ≤ t - b.stage ∧ t - b.stage < lo + n) := by
  rw [Rewriter.rewriteBlock] at hnone
  simp only [ite_eq_left_iff, reduceCtorEq, imp_false, not_not] at hnone
  have hsound := A.provesNot_sound _ _ hnone
  cases hunit : A.provesOne (stop.sub start) with
  | true =>
    have hone := A.provesOne_sound _ hunit env fun _ => 0
    rw [eval_sub, h.evalStart, h.evalStop] at hone
    have hrewriter : (K.rewriter A mayConflict).analyzer.provesOne (stop.sub start) = true := hunit
    have hzero := hsound env (fun _ => 0) (by simp [hrewriter])
    simp only [hrewriter, if_true] at hzero
    have hs : (start.sub (.int b.stage)).eval env (fun _ => 0) = t - b.stage := by
      rw [eval_sub, h.evalStart, eval_int]
      omega
    intro hin
    exact (eval_inbound mayConflict h A needBoundCheck hs).mpr (fun _ => hin) hzero
  | false =>
    have hrewriter : (K.rewriter A mayConflict).analyzer.provesOne (stop.sub start) = false := hunit
    have hset := h.set hfresh t
    have hzero := hsound (env.set v t) (fun _ => 0) (by
      intro r hr
      simp only [hrewriter, Bool.false_eq_true, if_false, Option.mem_def, Option.some_inj] at hr
      subst hr
      rw [hset.evalStart, hset.evalStop, Env.set_self]
      exact ht)
    simp only [hrewriter, Bool.false_eq_true, if_false] at hzero
    have hs : ((Expr.var v).sub (.int b.stage)).eval (env.set v t) (fun _ => 0) = t - b.stage := by
      rw [eval_sub, eval_var, Env.set_self, eval_int]
    intro hin
    exact (eval_inbound mayConflict hset A needBoundCheck hs).mpr (fun _ => hin) hzero

/-- In a round, the predicate of a block says whether there is an iteration for it, and its index
is that iteration. -/
theorem eval_rewriteBlock (h : Bounds K env lo n start stop first last) (hfresh : K.Fresh v)
    (ht : first ≤ t ∧ t < last)
    (hcheck : needBoundCheck = false → lo ≤ t - b.stage ∧ t - b.stage < lo + n)
    {rb : RewrittenBlock}
    (hsome : (K.rewriter A mayConflict).rewriteBlock start stop v needBoundCheck b = some rb)
    (m : Mem) :
    (rb.predicate.eval (roundEnv (A.provesOne (stop.sub start)) env v lo first t) m ≠ 0 ↔
        lo ≤ t - b.stage ∧ t - b.stage < lo + n) ∧
      rb.accessIndex.eval (roundEnv (A.provesOne (stop.sub start)) env v lo first t) m =
        t - b.stage := by
  rw [Rewriter.rewriteBlock] at hsome
  simp only [Option.ite_none_left_eq_some, Option.some_inj] at hsome
  obtain ⟨-, rfl⟩ := hsome
  have hin : (needBoundCheck = true → lo ≤ t - b.stage ∧ t - b.stage < lo + n) ↔
      lo ≤ t - b.stage ∧ t - b.stage < lo + n := by
    cases needBoundCheck with
    | false => exact ⟨fun _ => hcheck rfl, fun h _ => h⟩
    | true => exact ⟨fun h => h rfl, fun h _ => h⟩
  cases hunit : A.provesOne (stop.sub start) with
  | true =>
    have hone := A.provesOne_sound _ hunit env fun _ => 0
    rw [eval_sub, h.evalStart, h.evalStop] at hone
    have hrewriter : (K.rewriter A mayConflict).analyzer.provesOne (stop.sub start) = true := hunit
    have hs : (start.sub (.int b.stage)).eval env m = t - b.stage := by
      rw [eval_sub, h.evalStart, eval_int]
      omega
    simp only [hrewriter, if_true, roundEnv]
    exact ⟨(eval_inbound mayConflict h A needBoundCheck hs).trans hin, hs⟩
  | false =>
    have hrewriter : (K.rewriter A mayConflict).analyzer.provesOne (stop.sub start) = false := hunit
    have hcounter := h.set hfresh (t - (first - lo))
    have hset := h.set hfresh t
    have hdelta : ((Expr.var v).add (start.sub K.loop.min)).eval
        (env.set v (t - (first - lo))) m = t := by
      rw [eval_add, eval_sub, eval_var, Env.set_self, hcounter.evalStart, hcounter.min]
      omega
    have hs : ((Expr.var v).sub (.int b.stage)).eval (env.set v t) m = t - b.stage := by
      rw [eval_sub, eval_var, Env.set_self, eval_int]
    have hindex : (((Expr.var v).sub (.int b.stage)).add (start.sub K.loop.min)).eval
        (env.set v (t - (first - lo))) m = t - b.stage := by
      rw [eval_add, eval_sub, eval_sub, eval_var, Env.set_self, eval_int, hcounter.evalStart,
        hcounter.min]
      omega
    have hpred : (Expr.subst v ((Expr.var v).add (start.sub K.loop.min))
          ((K.rewriter A mayConflict).inbound needBoundCheck
            ((Expr.var v).sub (.int b.stage)))).eval (env.set v (t - (first - lo))) m ≠ 0 ↔
        lo ≤ t - b.stage ∧ t - b.stage < lo + n := by
      rw [Expr.eval_subst hdelta, Env.set_set]
      exact (eval_inbound mayConflict hset A needBoundCheck hs).trans hin
    simp only [hrewriter, Bool.false_eq_true, if_false, roundEnv]
    exact ⟨hpred, hindex⟩

/-- A block that is emitted runs its instance of the round, if there is one. -/
theorem run_of_rewriteBlock (hscoped : K.WellScoped) (haddr : K.Addressed mayConflict lo)
    (h : Bounds K env lo n start stop first last) (hfresh : K.Fresh v) (hb : b ∈ K.info)
    (ht : first ≤ t ∧ t < last)
    (hcheck : needBoundCheck = false → lo ≤ t - b.stage ∧ t - b.stage < lo + n)
    {rb : RewrittenBlock}
    (hsome : (K.rewriter A mayConflict).rewriteBlock start stop v needBoundCheck b = some rb)
    (m : Mem) :
    (Stmt.ifThen rb.predicate rb.body).run
        (roundEnv (A.provesOne (stop.sub start)) env v lo first t) m =
      if lo ≤ t - b.stage ∧ t - b.stage < lo + n then
        K.runVersion mayConflict env lo (t - b.stage, b) m
      else m := by
  have hpred := (eval_rewriteBlock h hfresh ht hcheck hsome m).1
  have hindex := fun m => (eval_rewriteBlock h hfresh ht hcheck hsome m).2
  rw [Stmt.run]
  refine if_congr hpred ?_ rfl
  rw [Rewriter.rewriteBlock] at hsome
  simp only [Option.ite_none_left_eq_some, Option.some_inj] at hsome
  obtain ⟨-, rfl⟩ := hsome
  cases hunit : A.provesOne (stop.sub start) with
  | true =>
    have hrewriter : (K.rewriter A mayConflict).analyzer.provesOne (stop.sub start) = true := hunit
    have hvars : ∀ y ∈ (start.sub (.int b.stage)).vars,
        y = v ∨ y ∈ K.loop.min.vars ∨ y ∈ K.loop.extent.vars := by
      intro y hy
      simp only [Expr.sub, Expr.binary, Expr.vars, Exprs.vars, List.append_nil] at hy
      exact .inr (h.varsStart y hy)
    simp only [hrewriter, hunit, if_true, roundEnv] at hindex ⊢
    exact run_subst_rewriteStmt hscoped haddr h.min hfresh (fun _ _ => rfl) hb hindex hvars m
  | false =>
    have hrewriter : (K.rewriter A mayConflict).analyzer.provesOne (stop.sub start) = false := hunit
    have hcounter := h.set hfresh (t - (first - lo))
    have hvars : ∀ y ∈ (((Expr.var v).sub (.int b.stage)).add (start.sub K.loop.min)).vars,
        y = v ∨ y ∈ K.loop.min.vars ∨ y ∈ K.loop.extent.vars := by
      intro y hy
      simp only [Expr.add, Expr.sub, Expr.binary, Expr.vars, Exprs.vars, List.append_nil,
        List.mem_append, List.mem_singleton] at hy
      rcases hy with hy | hy | hy
      · exact .inl hy
      · exact .inr (h.varsStart y hy)
      · exact .inr (.inl hy)
    simp only [hrewriter, hunit, Bool.false_eq_true, if_false, roundEnv] at hindex ⊢
    exact run_subst_rewriteStmt hscoped haddr h.min hfresh
      (fun x hx => env.set_of_ne v _ hx) hb hindex hvars m

variable (A needBoundCheck) in
/-- A round of an emitted loop. -/
theorem run_round (hscoped : K.WellScoped) (haddr : K.Addressed mayConflict lo)
    (h : Bounds K env lo n start stop first last) (hfresh : K.Fresh v)
    {ordered : List (PipelineBlock R)} (hmem : ∀ b ∈ ordered, b ∈ K.info)
    (ht : first ≤ t ∧ t < last)
    (hcheck : needBoundCheck = false → ∀ b ∈ ordered, lo ≤ t - b.stage ∧ t - b.stage < lo + n)
    (m : Mem) :
    (seqAll ((ordered.filterMap ((K.rewriter A mayConflict).rewriteBlock start stop v
        needBoundCheck)).map fun rb => .ifThen rb.predicate rb.body)).run
        (roundEnv (A.provesOne (stop.sub start)) env v lo first t) m =
      runAllOf (K.runVersion mayConflict env lo) (round lo n ordered t) m := by
  rw [run_seqAll, List.map_filterMap]
  refine run_filterMap (fun b hb hnone => ?_) (fun b hb s hs m => ?_) m
  · rw [Option.map_eq_none_iff] at hnone
    exact if_neg (not_inBounds_of_rewriteBlock h hfresh ht hnone)
  · obtain ⟨rb, hrb, rfl⟩ := Option.map_eq_some_iff.mp hs
    rw [run_of_rewriteBlock hscoped haddr h hfresh (hmem b hb) ht (fun hf => hcheck hf b hb) hrb]
    split <;> rfl

variable (A needBoundCheck) in
/-- The rounds of an emitted loop, one after the other. -/
theorem run_emitImpl (hscoped : K.WellScoped) (haddr : K.Addressed mayConflict lo)
    (h : Bounds K env lo n start stop first last) (hfresh : K.Fresh v)
    {ordered : List (PipelineBlock R)} (hmem : ∀ b ∈ ordered, b ∈ K.info)
    (hcheck : needBoundCheck = false → ∀ t, first ≤ t → t < last → ∀ b ∈ ordered,
      lo ≤ t - b.stage ∧ t - b.stage < lo + n) (m : Mem) :
    ((K.rewriter A mayConflict).emitImpl ordered start stop v needBoundCheck).run env m =
      runAllOf (K.runVersion mayConflict env lo)
        ((span first (last - first).toNat).flatMap (round lo n ordered)) m := by
  have hround : ∀ t, first ≤ t → t < last → ∀ m, _ := fun t h₁ h₂ m =>
    run_round A needBoundCheck hscoped haddr h hfresh hmem ⟨h₁, h₂⟩
      (fun hf => hcheck hf t h₁ h₂) m
  rw [Rewriter.emitImpl]
  by_cases hnil : ordered.filterMap
      ((K.rewriter A mayConflict).rewriteBlock start stop v needBoundCheck) = []
  · -- no block has anything to run
    have hempty : (span first (last - first).toNat).flatMap (round lo n ordered) = [] := by
      refine List.flatMap_eq_nil_iff.mpr fun t ht => ?_
      rw [mem_span] at ht
      refine List.filterMap_eq_nil_iff.mpr fun b hb => if_neg ?_
      exact not_inBounds_of_rewriteBlock h hfresh ⟨ht.1, by omega⟩
        (List.filterMap_eq_nil_iff.mp hnil b hb)
    rw [hempty, hnil]
    rfl
  · cases hunit : A.provesOne (stop.sub start) with
    | true =>
      have hone := A.provesOne_sound _ hunit env fun _ => 0
      rw [eval_sub, h.evalStart, h.evalStop] at hone
      have hspan : span first (last - first).toNat = [first] := by
        rw [hone]
        show span first 1 = [first]
        rw [span_succ]
        rfl
      have hthis := hround first le_rfl (by omega) m
      rw [hunit, roundEnv, if_pos rfl] at hthis
      simp only [or_true, if_true, PipelinedFor.rewriter, hunit] at hthis ⊢
      rw [hspan, List.flatMap_singleton]
      exact hthis
    | false =>
      have hrewriter : (K.rewriter A mayConflict).analyzer.provesOne (stop.sub start) = false :=
        hunit
      have hextent : (stop.sub start).eval env m = last - first := by
        rw [eval_sub, h.evalStart, h.evalStop]
      have hmin : (K.rewriter A mayConflict).loop.min.eval env m = lo := h.min m
      simp only [hnil, hrewriter, Bool.false_eq_true, or_self, if_false]
      rw [Stmt.run, hextent, hmin]
      -- the counter starts at the minimum, the rounds at `first`
      have hshift : (span first (last - first).toNat).flatMap (round lo n ordered) =
          (span lo (last - first).toNat).flatMap fun t => round lo n ordered (t + (first - lo)) := by
        have := map_add_span lo (first - lo) (last - first).toNat
        rw [show lo + (first - lo) = first by omega] at this
        rw [← this, List.flatMap_map]
      rw [hshift]
      refine countLoop_runAllOf _ _ _ fun t h₁ h₂ m => ?_
      have hthis := hround (t + (first - lo)) (by omega) (by omega) m
      rw [hunit, roundEnv, if_neg Bool.false_ne_true, show t + (first - lo) - (first - lo) = t by
        omega] at hthis
      exact hthis

end

end PipelinedFor

end TileLangNpuir.Pipeline
