import TileLangNpuir.Lib.Schedule
import TileLangNpuir.Pipeline.Inject

/-!
# Versions

The rewritten body of an iteration does to the versions of that iteration what the body does to
the buffers.
-/

namespace TileLangNpuir.Pipeline

open Tir RowMajor

/-- Every element of a buffer moved up by as much as `skip` says for its buffer. -/
def moveUp (skip : Var → ℤ) : Equiv.Perm Cell where
  toFun c := (c.1, skip c.1 + c.2)
  invFun c := (c.1, c.2 - skip c.1)
  left_inv c := by simp
  right_inv c := by simp

@[simp]
theorem moveUp_apply (skip : Var → ℤ) (c : Cell) : moveUp skip c = (c.1, skip c.1 + c.2) := rfl

/-- What is seen of a memory through `moveUp`. -/
def behind (skip : Var → ℤ) (m : Mem) : Mem := fun c => m (moveUp skip c)

/-- In the iteration `k` steps after the first, `skip` leads to the version of the buffer. -/
def Skips (remap : Buffer → Option Buffer) (skip : Var → ℤ) (k : ℤ) (c : Buffer) : Prop :=
  (remap c = none ∧ skip c.data = 0) ∨
    ∃ n, remap c = some (rewriteAllocBuffer c n) ∧ skip c.data = k.fmod n * c.shape.prod

/-- The loop is in iteration `i`, and its first iteration is `lo`. -/
structure AtIteration (loop : PipelineLoop) (i lo : ℤ) (env : Env) : Prop where
  loopVar : env loop.loopVar = i
  min : ∀ m, loop.min.eval env m = lo

/-- The loop variable and the minimum stay what they are inside the statement. -/
def Untouched (loop : PipelineLoop) (s : Stmt) : Prop :=
  ∀ y ∈ s.binders, y ≠ loop.loopVar ∧ y ∉ loop.min.vars

section

variable {remap : Buffer → Option Buffer} {loop : PipelineLoop} {skip : Var → ℤ} {i lo : ℤ}
  {env : Env} {m : Mem}

theorem AtIteration.set (h : AtIteration loop i lo env) {y : Var} (hne : y ≠ loop.loopVar)
    (hnot : y ∉ loop.min.vars) (v : ℤ) : AtIteration loop i lo (env.set y v) :=
  ⟨(env.set_of_ne y v hne.symm).trans h.loopVar, eval_set_of_notMem h.min hnot v⟩

theorem eval_version (h : AtIteration loop i lo env) (c : Buffer) (n : ℤ) :
    (version loop (rewriteAllocBuffer c n)).eval env m = (i - lo).fmod n := by
  rw [version, eval_floormod, eval_sub, eval_var, h.loopVar, h.min]
  rfl

/-! ## Expressions -/

mutual

theorem eval_rewriteExpr (h : AtIteration loop i lo env) (e : Expr)
    (hskips : ∀ c ∈ e.loads, Skips remap skip (i - lo) c) :
    (rewriteExpr remap loop e).eval env m = e.eval env (behind skip m) := by
  cases e with
  | int n => rfl
  | var x => rfl
  | op f args => exact congrArg f (eval_rewriteExprs h args hskips)
  | load b indices =>
    have hindices := eval_rewriteExprs h indices fun c hc =>
      hskips c (List.mem_cons_of_mem b hc)
    rcases hskips b List.mem_cons_self with ⟨hnone, hzero⟩ | ⟨n, hsome, hskip⟩
    · rw [rewriteExpr, hnone, Expr.eval, Expr.eval, hindices, behind, moveUp_apply, hzero, zero_add]
    · rw [rewriteExpr, hsome, Expr.eval, Exprs.eval, Expr.eval, eval_version h, hindices, behind,
        moveUp_apply, hskip]
      rfl

theorem eval_rewriteExprs (h : AtIteration loop i lo env) (es : Exprs)
    (hskips : ∀ c ∈ es.loads, Skips remap skip (i - lo) c) :
    (rewriteExprs remap loop es).eval env m = es.eval env (behind skip m) := by
  cases es with
  | nil => rfl
  | cons e es =>
    rw [rewriteExprs, Exprs.eval, Exprs.eval,
      eval_rewriteExpr h e fun c hc => hskips c (List.mem_append_left _ hc),
      eval_rewriteExprs h es fun c hc => hskips c (List.mem_append_right _ hc)]

end

/-! ## Access pointers -/

def Window.up (skip : Var → ℤ) (w : Window) : Window := { w with offset := skip w.data + w.offset }

theorem view_up (w : Window) : (Window.up skip w).view m = w.view (behind skip m) := by
  funext k
  rw [Window.view, Window.view, behind, moveUp_apply, Window.up, add_assoc]

theorem behind_put (w : Window) (u : ℤ → Option ℤ) (m : Mem) :
    behind skip ((Window.up skip w).put u m) = w.put u (behind skip m) := by
  funext c
  have hcovers : (Window.up skip w).Covers (moveUp skip c) ↔ w.Covers c := by
    refine and_congr_right fun hc => ?_
    have hc : c.1 = w.data := hc
    simp only [Window.up, moveUp_apply, hc]
    omega
  rw [behind, Window.put, Window.put]
  by_cases hc : w.Covers c
  · have hdata : c.1 = w.data := hc.1
    have hplace : (moveUp skip c).2 - (Window.up skip w).offset = c.2 - w.offset := by
      simp only [Window.up, moveUp_apply, hdata]
      omega
    rw [if_pos hc, if_pos (hcovers.mpr hc), hplace, behind]
  · rw [if_neg hc, if_neg fun h => hc (hcovers.mp h), behind]

theorem behind_putAll (ws : List Window) (us : List (ℤ → Option ℤ)) (m : Mem) :
    behind skip (putAll (ws.map (Window.up skip)) us m) = putAll ws us (behind skip m) := by
  induction ws generalizing us m with
  | nil => rfl
  | cons w ws ih =>
    cases us with
    | nil => rfl
    | cons u us => rw [List.map_cons, putAll, putAll, ih, behind_put]

/-- The version a pointer leads to is that of the loads: the loop variable and its distance from
the minimum leave the same remainder. -/
def PtrSkips (remap : Buffer → Option Buffer) (i lo : ℤ) (p : AccessPtr) : Prop :=
  ∀ n, remap p.buffer = some (rewriteAllocBuffer p.buffer n) → i.fmod n = (i - lo).fmod n

theorem window_rewriteBufferAccess (h : AtIteration loop i lo env) (p : AccessPtr)
    (hskips : ∀ c ∈ p.buffer :: (p.offset.loads ++ p.extent.loads), Skips remap skip (i - lo) c)
    (hptr : PtrSkips remap i lo p) :
    (rewriteBufferAccess remap loop p).window env m =
      Window.up skip (p.window env (behind skip m)) := by
  have hoffset := eval_rewriteExpr (m := m) h p.offset fun c hc =>
    hskips c (List.mem_cons_of_mem _ (List.mem_append_left _ hc))
  have hextent := eval_rewriteExpr (m := m) h p.extent fun c hc =>
    hskips c (List.mem_cons_of_mem _ (List.mem_append_right _ hc))
  rcases hskips p.buffer List.mem_cons_self with ⟨hnone, hzero⟩ | ⟨n, hsome, hskip⟩
  · rw [rewriteBufferAccess, hnone]
    simp only [AccessPtr.window, Window.up, hoffset, hextent, hzero, zero_add]
  · have hversion : (numVersions (rewriteAllocBuffer p.buffer n)).eval env m = n := rfl
    rw [rewriteBufferAccess, hsome]
    simp only [AccessPtr.window, Window.up, eval_add, eval_mul, eval_floormod, eval_var, eval_int,
      hoffset, hextent, hversion, h.loopVar, hptr n hsome, hskip]
    rw [add_comm]
    rfl

/-! ## Statements -/

/-- The rewritten statement does to the versions what the statement does to the buffers. -/
theorem behind_run_rewriteStmt (s : Stmt) (huntouched : Untouched loop s)
    (hskips : ∀ c ∈ s.buffers, Skips remap skip (i - lo) c)
    (hptrs : ∀ p ∈ s.ptrs, PtrSkips remap i lo p) {env : Env} (h : AtIteration loop i lo env)
    (m : Mem) :
    behind skip ((rewriteStmt remap loop s).run env m) = s.run env (behind skip m) := by
  induction s generalizing env m with
  | nop => rfl
  | seq s t ihs iht =>
    rw [rewriteStmt, Stmt.run, Stmt.run,
      iht (fun y hy => huntouched y (List.mem_append_right _ hy))
        (fun c hc => hskips c (List.mem_append_right _ hc))
        (fun p hp => hptrs p (List.mem_append_right _ hp)) h,
      ihs (fun y hy => huntouched y (List.mem_append_left _ hy))
        (fun c hc => hskips c (List.mem_append_left _ hc))
        (fun p hp => hptrs p (List.mem_append_left _ hp)) h]
  | store b value indices =>
    have hvalue := eval_rewriteExpr (m := m) h value fun c hc =>
      hskips c (List.mem_cons_of_mem b (List.mem_append_left _ hc))
    have hindices := eval_rewriteExprs (m := m) h indices fun c hc =>
      hskips c (List.mem_cons_of_mem b (List.mem_append_right _ hc))
    have hset : ∀ k v, behind skip (m.set (b.data, skip b.data + k) v) =
        (behind skip m).set (b.data, k) v := by
      intro k v
      funext c
      have hcell : moveUp skip c = (b.data, skip b.data + k) ↔ c = (b.data, k) :=
        (moveUp skip).apply_eq_iff_eq (y := (b.data, k))
      simp only [behind, Mem.set, hcell]
    rcases hskips b List.mem_cons_self with ⟨hnone, hzero⟩ | ⟨n, hsome, hskip⟩
    · rw [rewriteStmt, hnone]
      simp only [Stmt.run, hvalue, hindices]
      rw [← hset, hzero, zero_add]
    · rw [rewriteStmt, hsome]
      simp only [Stmt.run, hvalue, hindices, Exprs.eval, eval_version h]
      rw [← hset, hskip]
      rfl
  | call f ptrs args =>
    have hargs := eval_rewriteExprs (m := m) h args fun c hc =>
      hskips c (List.mem_append_right _ hc)
    have hwindows : ((ptrs.map (rewriteBufferAccess remap loop)).map fun p => p.window env m) =
        (ptrs.map fun p => p.window env (behind skip m)).map (Window.up skip) := by
      rw [List.map_map, List.map_map]
      refine List.map_congr_left fun p hp => ?_
      exact window_rewriteBufferAccess h p
        (fun c hc => hskips c (List.mem_append_left _ (List.mem_flatMap.mpr ⟨p, hp, hc⟩)))
        (hptrs p hp)
    have hviews : ((ptrs.map fun p => p.window env (behind skip m)).map (Window.up skip)).map
          (fun w => w.view m) =
        (ptrs.map fun p => p.window env (behind skip m)).map fun w => w.view (behind skip m) := by
      rw [List.map_map]
      exact List.map_congr_left fun w _ => view_up w
    rw [rewriteStmt, Stmt.run, Stmt.run, hwindows, hviews, hargs, behind_putAll]
  | ifThen c body ih =>
    have hc := eval_rewriteExpr (m := m) h c fun d hd => hskips d (List.mem_append_left _ hd)
    rw [rewriteStmt, Stmt.run, Stmt.run, hc, apply_ite (behind skip),
      ih huntouched (fun d hd => hskips d (List.mem_append_right _ hd)) hptrs h]
  | ifThenElse c s t ihs iht =>
    have hc := eval_rewriteExpr (m := m) h c fun d hd => hskips d (List.mem_append_left _ hd)
    have hrest : ∀ d ∈ s.buffers ++ t.buffers, Skips remap skip (i - lo) d := fun d hd =>
      hskips d (List.mem_append_right _ hd)
    rw [rewriteStmt, Stmt.run, Stmt.run, hc, apply_ite (behind skip),
      ihs (fun y hy => huntouched y (List.mem_append_left _ hy))
        (fun d hd => hrest d (List.mem_append_left _ hd))
        (fun p hp => hptrs p (List.mem_append_left _ hp)) h,
      iht (fun y hy => huntouched y (List.mem_append_right _ hy))
        (fun d hd => hrest d (List.mem_append_right _ hd))
        (fun p hp => hptrs p (List.mem_append_right _ hp)) h]
  | forLoop x min extent body ih =>
    have hmin := eval_rewriteExpr (m := m) h min fun d hd => hskips d (List.mem_append_left _ hd)
    have hrest : ∀ d ∈ extent.loads ++ body.buffers, Skips remap skip (i - lo) d := fun d hd =>
      hskips d (List.mem_append_right _ hd)
    have hextent := eval_rewriteExpr (m := m) h extent fun d hd =>
      hrest d (List.mem_append_left _ hd)
    have hx := huntouched x List.mem_cons_self
    rw [rewriteStmt, Stmt.run, Stmt.run, hmin, hextent]
    refine countLoop_rel (R := fun m m' => behind skip m = m') (fun k a b hab => ?_) _ _ _ _ rfl
    rw [← hab]
    exact ih (fun y hy => huntouched y (List.mem_cons_of_mem x hy))
      (fun d hd => hrest d (List.mem_append_right _ hd)) hptrs (h.set hx.1 hx.2 k) a
  | letStmt x value body ih =>
    have hvalue := eval_rewriteExpr (m := m) h value fun d hd =>
      hskips d (List.mem_append_left _ hd)
    have hx := huntouched x List.mem_cons_self
    rw [rewriteStmt, Stmt.run, Stmt.run, hvalue]
    exact ih (fun y hy => huntouched y (List.mem_cons_of_mem x hy))
      (fun d hd => hskips d (List.mem_append_right _ hd)) hptrs (h.set hx.1 hx.2 _) m

/-- The rewritten statement is the statement with the cells kept in the versions. -/
theorem run_rewriteStmt (s : Stmt) (huntouched : Untouched loop s)
    (hskips : ∀ c ∈ s.buffers, Skips remap skip (i - lo) c)
    (hptrs : ∀ p ∈ s.ptrs, PtrSkips remap i lo p) (h : AtIteration loop i lo env) (m : Mem) :
    (rewriteStmt remap loop s).run env m = relocate (moveUp skip) (s.run env) m := by
  funext c
  have hrun := congrFun (behind_run_rewriteStmt s huntouched hskips hptrs h m) ((moveUp skip).symm c)
  rw [behind, Equiv.apply_symm_apply] at hrun
  exact hrun

end

end TileLangNpuir.Pipeline
