import TileLangNpuir.SimtLoad.Rewrite

/-!
# When the indirect load is the loop

The call evaluates the row, the lane base and the bound of the mask once, before any
lane is loaded; the loop evaluates them again in every iteration. The two agree when
nothing that changes in between occurs there.
-/

namespace TileLangNpuir.SimtLoad

open LoopVectorize (DType Var)

variable {V : Type} {A : Alg V}

mutual

theorem Expr.eval_congr {env env' : Env} {m m' : Mem V} :
    ∀ e : Expr, (∀ y ∈ e.vars, env y = env' y) → (∀ b ∈ e.reads, m b = m' b) →
      e.eval A env m = e.eval A env' m'
  | .var x, hv, _ => by
    rw [Expr.eval, Expr.eval, hv x List.mem_cons_self]
  | .imm _ _, _, _ => rfl
  | .add a b, hv, hr => by
    rw [Expr.eval, Expr.eval,
      a.eval_congr (fun y hy => hv y (List.mem_append_left _ hy))
        fun y hy => hr y (List.mem_append_left _ hy),
      b.eval_congr (fun y hy => hv y (List.mem_append_right _ hy))
        fun y hy => hr y (List.mem_append_right _ hy)]
  | .sub a b, hv, hr => by
    rw [Expr.eval, Expr.eval,
      a.eval_congr (fun y hy => hv y (List.mem_append_left _ hy))
        fun y hy => hr y (List.mem_append_left _ hy),
      b.eval_congr (fun y hy => hv y (List.mem_append_right _ hy))
        fun y hy => hr y (List.mem_append_right _ hy)]
  | .app _ _ args, hv, hr => by
    rw [Expr.eval, Expr.eval, args.eval_congr hv hr]
  | .load b indices, hv, hr => by
    rw [Expr.eval, Expr.eval, hr b List.mem_cons_self,
      indices.eval_congr hv fun y hy => hr y (List.mem_cons_of_mem _ hy)]

theorem Exprs.eval_congr {env env' : Env} {m m' : Mem V} :
    ∀ es : Exprs, (∀ y ∈ es.vars, env y = env' y) → (∀ b ∈ es.reads, m b = m' b) →
      es.eval A env m = es.eval A env' m'
  | .nil, _, _ => rfl
  | .cons e es, hv, hr => by
    rw [Exprs.eval, Exprs.eval,
      e.eval_congr (fun y hy => hv y (List.mem_append_left _ hy))
        fun y hy => hr y (List.mem_append_left _ hy),
      es.eval_congr (fun y hy => hv y (List.mem_append_right _ hy))
        fun y hy => hr y (List.mem_append_right _ hy)]

end

/-- The contents differ in one buffer at most. -/
def AgreeOff (dst : Buffer) (m m' : Mem V) : Prop := ∀ b, b ≠ dst → m' b = m b

theorem AgreeOff.set {dst : Buffer} {m m' : Mem V} (h : AgreeOff dst m m') (i : List ℤ) (v : V) :
    AgreeOff dst m (m'.set dst i v) := by
  intro b hb
  rw [Mem.set, Function.update_of_ne hb]
  exact h b hb

/-- What mentions neither the lane nor the destination is the same for every lane. -/
theorem Expr.toInt_uniform {e : Expr} {x : Var} {dst : Buffer} (hx : x ∉ e.vars)
    (hdst : dst ∉ e.reads) (env : Env) (k : ℤ) {m m' : Mem V} (h : AgreeOff dst m m') :
    e.toInt A (Function.update env x k) m' = e.toInt A env m := by
  have heval : e.eval A (Function.update env x k) m' = e.eval A env m := by
    refine e.eval_congr (fun y hy => Function.update_of_ne ?_ k env) fun b hb => h b ?_
    · rintro rfl
      exact hx hy
    · rintro rfl
      exact hdst hb
  rw [Expr.toInt, Expr.toInt, heval]

/-! ## What the matchers accept -/

theorem toInt_var (x : Var) (env : Env) (k : ℤ) (m : Mem V) :
    (Expr.var x).toInt A (Function.update env x k) m = k := by
  rw [Expr.toInt, Expr.eval, A.int_imm, Function.update_self]

theorem toInt_imm (t : DType) (n : ℤ) (env : Env) (m : Mem V) :
    (Expr.imm t n).toInt A env m = n := A.int_imm n

theorem toInt_add (a b : Expr) (env : Env) (m : Mem V) :
    (Expr.add a b).toInt A env m = a.toInt A env m + b.toInt A env m := A.int_imm _

theorem toInt_sub (a b : Expr) (env : Env) (m : Mem V) :
    (Expr.sub a b).toInt A env m = a.toInt A env m - b.toInt A env m := A.int_imm _

/-- A lane index is its base plus the lane. -/
theorem toInt_of_matchLaneIndex {e base : Expr} {x : Var} (h : matchLaneIndex e x = some base)
    (env : Env) (k : ℤ) (m : Mem V) :
    e.toInt A (Function.update env x k) m = base.toInt A (Function.update env x k) m + k := by
  unfold matchLaneIndex at h
  split at h
  · rename_i he
    obtain rfl := Option.some.inj h
    rw [he, toInt_var, toInt_imm, Int.zero_add]
  · split at h
    · rename_i a b _
      rw [toInt_add]
      split at h
      · rename_i ha
        obtain rfl := Option.some.inj h
        rw [ha, toInt_var, Int.add_comm]
      · split at h
        · rename_i hb
          obtain rfl := Option.some.inj h
          rw [hb, toInt_var]
        · cases h
    · cases h

/-- A mask lets the lanes below the valid extent through. -/
theorem holds_of_matchTailMask {c : Cond} {valid : Expr} {x : Var}
    (h : matchTailMask c x = some valid) (env : Env) (k : ℤ) (m : Mem V) :
    c.Holds A (Function.update env x k) m ↔ k < valid.toInt A (Function.update env x k) m := by
  unfold matchTailMask at h
  split at h
  · rename_i a n
    rw [Cond.Holds]
    split at h
    · rename_i ha
      obtain rfl := Option.some.inj h
      rw [ha, toInt_var]
    · split at h
      · rename_i a b _
        rw [toInt_add]
        split at h
        · rename_i ha
          obtain rfl := Option.some.inj h
          rw [ha, toInt_var, toInt_sub]
          omega
        · split at h
          · rename_i hb
            obtain rfl := Option.some.inj h
            rw [hb, toInt_var, toInt_sub]
            omega
          · cases h
      · cases h
  · cases h

/-- What a gather evaluates besides the lane. -/
def IndirectLoadKind.uniforms : IndirectLoadKind → List Expr
  | .rank1 => []
  | .lutRow2D row base => [row, base]

/-- The bound of the mask, the row and the lane base of a loop. -/
def uniforms (x : Var) (extent : Expr) (body : Stmt) : List Expr :=
  match splitGuard x extent body with
  | some (valid, s) =>
    valid :: ((matchStoreBody s x).elim [] fun p => p.kind.uniforms)
  | none => []

/-- The store of a loop body that is rewritten. -/
inductive Gathers (x : Var) : Stmt → IndirectLoadPattern → Prop
  | rank1 (src idx dst : Buffer) :
      Gathers x
        (.store dst (.cons (.var x) .nil)
          (.load src (.cons (.load idx (.cons (.var x) .nil)) .nil)))
        ⟨src, idx, dst, .rank1⟩
  | lutRow2D (src idx dst : Buffer) {row lane base : Expr}
      (hlane : matchLaneIndex lane x = some base) :
      Gathers x
        (.store dst (.cons (.var x) .nil)
          (.load src (.cons row (.cons (.load idx (.cons row (.cons lane .nil))) .nil))))
        ⟨src, idx, dst, .lutRow2D row base⟩

theorem gathers_of_matchStoreBody {s : Stmt} {x : Var} {p : IndirectLoadPattern}
    (h : matchStoreBody s x = some p) : Gathers x s p := by
  unfold matchStoreBody at h
  split at h
  · split at h
    · rename_i hlane
      subst hlane
      split at h
      · split at h
        · rename_i hi
          subst hi
          obtain rfl := Option.some.inj h
          exact .rank1 _ _ _
        · cases h
      · split at h
        · rename_i hrow
          subst hrow
          obtain ⟨base, hbase, rfl⟩ := Option.map_eq_some_iff.mp h
          exact .lutRow2D _ _ _ hbase
        · cases h
      · cases h
    · cases h
  · cases h

/-! ## One lane -/

/-- Storing a lane is storing the element the call selects for it. -/
theorem Gathers.run {s : Stmt} {x : Var} {p : IndirectLoadPattern} (hg : Gathers x s p)
    (hsrc : p.srcBuffer ≠ p.dstBuffer) (hidx : p.idxBuffer ≠ p.dstBuffer)
    (hx : ∀ e ∈ p.kind.uniforms, x ∉ e.vars)
    (hdst : ∀ e ∈ p.kind.uniforms, p.dstBuffer ∉ e.reads) (block valid : Expr) (env : Env) (k : ℤ)
    {m m' : Mem V} (h : AgreeOff p.dstBuffer m m') :
    s.run A (Function.update env x k) m' =
      m'.set p.dstBuffer [k] ((buildIndirectLoad x block valid p).selected A env m k) := by
  have hlane : (Exprs.cons (.var x) .nil).toInts A (Function.update env x k) m' = [k] := by
    have := toInt_var (A := A) x env k m'
    simpa [Exprs.toInts, Exprs.eval, Expr.toInt] using this
  cases hg with
  | rank1 src idx dst =>
    have hload : (Expr.load idx (.cons (.var x) .nil)).toInt A (Function.update env x k) m' =
        A.int (m idx [k]) := by
      rw [Expr.toInt, Expr.eval, ← Exprs.toInts, hlane, h idx hidx]
    rw [Stmt.run, hlane, Expr.eval, Exprs.eval, Exprs.eval, List.map_cons, List.map_nil, ← Expr.toInt,
      hload, h src hsrc]
    simp [buildIndirectLoad, IndirectLoad.selected, makeRegion, Region.at, Exprs.toInts, Exprs.eval,
      Expr.eval, A.int_imm, addLast]
  | @lutRow2D src idx dst row lane base hmatch =>
    have hrow : row.toInt A (Function.update env x k) m' = row.toInt A env m :=
      Expr.toInt_uniform (hx row List.mem_cons_self) (hdst row List.mem_cons_self) env k h
    have hbase : base.toInt A (Function.update env x k) m' = base.toInt A env m :=
      Expr.toInt_uniform (hx base (List.mem_cons_of_mem _ List.mem_cons_self))
        (hdst base (List.mem_cons_of_mem _ List.mem_cons_self)) env k h
    have hi : lane.toInt A (Function.update env x k) m' = base.toInt A env m + k := by
      rw [toInt_of_matchLaneIndex hmatch, hbase]
    have hload : (Expr.load idx (.cons row (.cons lane .nil))).toInt A (Function.update env x k) m' =
        A.int (m idx [row.toInt A env m, base.toInt A env m + k]) := by
      rw [Expr.toInt, Expr.eval, Exprs.eval, Exprs.eval, Exprs.eval, List.map_cons, List.map_cons,
        List.map_nil, ← Expr.toInt, ← Expr.toInt, hrow, hi, h idx hidx]
    rw [Stmt.run, hlane, Expr.eval, Exprs.eval, Exprs.eval, Exprs.eval, List.map_cons, List.map_cons,
      List.map_nil, ← Expr.toInt, ← Expr.toInt, hrow, hload, h src hsrc]
    simp [buildIndirectLoad, IndirectLoad.selected, makeRegion2D, Region.at, Exprs.toInts, Exprs.eval,
      Expr.toInt, Expr.eval, A.int_imm, addLast]

/-- An iteration stores its lane if the lane is valid. -/
theorem run_of_splitGuard {x : Var} {extent valid : Expr} {body s : Stmt} {p : IndirectLoadPattern}
    (hsplit : splitGuard x extent body = some (valid, s)) (hg : Gathers x s p)
    (hsrc : p.srcBuffer ≠ p.dstBuffer) (hidx : p.idxBuffer ≠ p.dstBuffer)
    (hx : ∀ e ∈ valid :: p.kind.uniforms, x ∉ e.vars)
    (hdst : ∀ e ∈ valid :: p.kind.uniforms, p.dstBuffer ∉ e.reads) (env : Env) {k : ℤ}
    {m m' : Mem V} (hk : k < extent.toInt A env m) (h : AgreeOff p.dstBuffer m m') :
    body.run A (Function.update env x k) m' =
      if k < valid.toInt A env m then
        m'.set p.dstBuffer [k] ((buildIndirectLoad x extent valid p).selected A env m k)
      else m' := by
  have hrun := hg.run (A := A) hsrc hidx (fun e he => hx e (List.mem_cons_of_mem _ he))
    (fun e he => hdst e (List.mem_cons_of_mem _ he)) extent valid env k h
  have hvalid := Expr.toInt_uniform (A := A) (hx valid List.mem_cons_self)
    (hdst valid List.mem_cons_self) env k h
  cases body with
  | ifThen c t =>
    obtain ⟨valid', hmask, heq⟩ := Option.map_eq_some_iff.mp hsplit
    obtain ⟨rfl, rfl⟩ := Prod.mk.inj heq
    have hholds := holds_of_matchTailMask (A := A) hmask env k m'
    rw [hvalid] at hholds
    rw [Stmt.run, hrun]
    by_cases hlt : k < valid'.toInt A env m
    · rw [if_pos hlt, if_pos (hholds.mpr hlt)]
    · rw [if_neg hlt, if_neg (hholds.not.mpr hlt)]
  | ifThenElse c t u => cases hsplit
  | store b indices value =>
    obtain ⟨rfl, rfl⟩ := Prod.mk.inj (Option.some.inj hsplit)
    rw [hrun, if_pos hk]
  | forLoop y lo n kind t =>
    obtain ⟨rfl, rfl⟩ := Prod.mk.inj (Option.some.inj hsplit)
    cases hg
  | seq t u =>
    obtain ⟨rfl, rfl⟩ := Prod.mk.inj (Option.some.inj hsplit)
    cases hg
  | evaluate call =>
    obtain ⟨rfl, rfl⟩ := Prod.mk.inj (Option.some.inj hsplit)
    cases hg

/-! ## The loop -/

theorem exec_buildIndirectLoad (x : Var) (t : DType) (n : ℤ) (valid : Expr)
    (p : IndirectLoadPattern) (env : Env) (m : Mem V) :
    (buildIndirectLoad x (.imm t n) valid p).exec A env m =
      countLoop (fun k m' => m'.set p.dstBuffer [k]
        ((buildIndirectLoad x (.imm t n) valid p).selected A env m k))
        (min (valid.toInt A env m) n).toNat 0 m := by
  obtain ⟨src, idx, dst, kind⟩ := p
  cases kind <;>
    simp [IndirectLoad.exec, IndirectLoad.block, buildIndirectLoad, makeRegion, Region.at, Exprs.toInts,
      Exprs.eval, Expr.eval, toInt_imm, A.int_imm, addLast]

/-- The loop and the call, when the row, the lane base and the bound are uniform. -/
theorem run_loop_of_uniform {x : Var} {t t' : DType} {n : ℤ} {valid : Expr} {body s : Stmt}
    {p : IndirectLoadPattern} (hsplit : splitGuard x (.imm t n) body = some (valid, s))
    (hg : Gathers x s p) (hsrc : p.srcBuffer ≠ p.dstBuffer) (hidx : p.idxBuffer ≠ p.dstBuffer)
    (hx : ∀ e ∈ valid :: p.kind.uniforms, x ∉ e.vars)
    (hdst : ∀ e ∈ valid :: p.kind.uniforms, p.dstBuffer ∉ e.reads) (kind : ForKind) (hn : 0 < n)
    (env : Env) (m : Mem V) :
    (Stmt.forLoop x (.imm t' 0) (.imm t n) kind body).run A env m =
      (Stmt.evaluate (buildIndirectLoad x (.imm t n) valid p)).run A env m := by
  have hloop : countLoop (fun k m' => body.run A (Function.update env x k) m') n.toNat 0 m =
      countLoop (fun k m' => if k < valid.toInt A env m then
        m'.set p.dstBuffer [k] ((buildIndirectLoad x (.imm t n) valid p).selected A env m k)
        else m') n.toNat 0 m := by
    -- an iteration has only changed the destination
    refine (countLoop_rel_of_bounds (R := fun a b => a = b ∧ AgreeOff p.dstBuffer m a)
      n.toNat 0 m m ?_ ⟨rfl, fun _ _ => rfl⟩).1
    rintro k - hk a b ⟨rfl, hagree⟩
    have hkn : k < (Expr.imm t n).toInt A env m := by
      rw [toInt_imm]
      omega
    rw [run_of_splitGuard hsplit hg hsrc hidx hx hdst env hkn hagree]
    refine ⟨rfl, ?_⟩
    split
    · exact hagree.set _ _
    · exact hagree
  have hbound : (min (valid.toInt A env m) (0 + n.toNat) - 0).toNat =
      (min (valid.toInt A env m) n).toNat := by omega
  rw [Stmt.run, Stmt.run, exec_buildIndirectLoad, toInt_imm, toInt_imm, hloop, countLoop_guard, hbound]

/-! ## What a rewritten loop is -/

/-- What `CanRewriteBoundary` checks, as far as the meaning of the loop rests on it. -/
structure Boundary (lo extent : Expr) (p : IndirectLoadPattern) : Prop where
  min : ∃ t, lo = .imm t 0
  extent : ∃ t n, extent = .imm t n ∧ 0 < n
  idx : p.idxBuffer ≠ p.dstBuffer
  src : p.kind = .rank1 → p.srcBuffer ≠ p.dstBuffer

theorem boundary_of_canRewriteBoundary {lo extent valid : Expr} {p : IndirectLoadPattern}
    (h : canRewriteBoundary lo extent valid p = true) : Boundary lo extent p := by
  unfold canRewriteBoundary at h
  rw [Bool.and_eq_true, Bool.and_eq_true, Bool.and_eq_true, Bool.and_eq_true,
    Bool.and_eq_true, decide_eq_true_eq, decide_eq_true_eq, decide_eq_true_eq] at h
  obtain ⟨⟨⟨⟨⟨hbounds, -⟩, hscope⟩, hsrc⟩, hidx⟩, hdst⟩ := h
  have himm : (∃ t, lo = .imm t 0) ∧ ∃ t n, extent = .imm t n ∧ 0 < n := by
    split at hbounds
    · rename_i t lo' t' n
      rw [Bool.and_eq_true, decide_eq_true_eq, decide_eq_true_eq] at hbounds
      obtain ⟨hn, rfl⟩ := hbounds
      exact ⟨⟨t, rfl⟩, t', n, rfl, hn⟩
    · cases hbounds
  refine ⟨himm.1, himm.2, ?_, ?_⟩
  · intro heq
    rw [heq, hdst, hsrc] at hidx
    cases hidx
  · intro hkind heq
    rw [hkind, heq] at hscope
    simp only [Bool.and_eq_true, decide_eq_true_eq, Buffer.isSharedScope, Bool.or_eq_true] at hscope
    obtain ⟨⟨hglobal, -⟩, hshared | hshared⟩ := hscope
    · rw [hglobal] at hshared
      cases hshared
    · rw [hglobal] at hshared
      cases hshared

theorem tryRewrite_eq_some {x : Var} {lo extent : Expr} {body : Stmt} {call : IndirectLoad}
    (h : tryRewrite x lo extent body = some call) :
    ∃ valid s p, splitGuard x extent body = some (valid, s) ∧ matchStoreBody s x = some p ∧
      Boundary lo extent p ∧ call = buildIndirectLoad x extent valid p := by
  rw [tryRewrite] at h
  obtain ⟨⟨valid, s⟩, hsplit, h⟩ := Option.bind_eq_some_iff.mp h
  obtain ⟨p, hp, h⟩ := Option.bind_eq_some_iff.mp h
  split at h
  · rename_i hcan
    exact ⟨valid, s, p, hsplit, hp, boundary_of_canRewriteBoundary hcan, (Option.some.inj h).symm⟩
  · cases h

/-- The accesses of the store are accesses of the body. -/
theorem accesses_of_splitGuard {x : Var} {extent valid : Expr} {body s : Stmt}
    (h : splitGuard x extent body = some (valid, s)) : ∀ a ∈ s.accesses, a ∈ body.accesses := by
  intro a ha
  cases body with
  | ifThen c t =>
    obtain ⟨valid', -, heq⟩ := Option.map_eq_some_iff.mp h
    obtain ⟨-, rfl⟩ := Prod.mk.inj heq
    exact List.mem_append_right _ ha
  | ifThenElse c t u => cases h
  | store b indices value =>
    obtain ⟨-, rfl⟩ := Prod.mk.inj (Option.some.inj h)
    exact ha
  | forLoop y lo n kind t =>
    obtain ⟨-, rfl⟩ := Prod.mk.inj (Option.some.inj h)
    exact ha
  | seq t u =>
    obtain ⟨-, rfl⟩ := Prod.mk.inj (Option.some.inj h)
    exact ha
  | evaluate call =>
    obtain ⟨-, rfl⟩ := Prod.mk.inj (Option.some.inj h)
    exact ha

theorem Gathers.src_ne_dst {s : Stmt} {x : Var} {p : IndirectLoadPattern} (hg : Gathers x s p)
    (hrank : ∀ a ∈ s.accesses, a.2 = a.1.shape.length)
    (hrank1 : p.kind = .rank1 → p.srcBuffer ≠ p.dstBuffer) : p.srcBuffer ≠ p.dstBuffer := by
  cases hg with
  | rank1 => exact hrank1 rfl
  | @lutRow2D src idx dst row lane base hlane =>
    -- a buffer of two dimensions is not one of one
    rintro heq
    have hdst : 1 = dst.shape.length := hrank (dst, 1) List.mem_cons_self
    have hsrc : 2 = src.shape.length := by
      refine hrank (src, 2) (List.mem_cons_of_mem _ (List.mem_append_right _ ?_))
      exact List.mem_cons_self
    rw [show src = dst from heq, ← hdst] at hsrc
    cases hsrc

/-- The variables of the call are those of the row, the lane base and the bound, and those
of the source's shape. -/
theorem Gathers.mem_vars_iff {s : Stmt} {x : Var} {p : IndirectLoadPattern} (hg : Gathers x s p)
    (houtside : ∀ a ∈ s.accesses, ∀ d ∈ a.1.shape, x ∉ d.toExpr.vars) (t : DType) (n : ℤ)
    (valid : Expr) :
    x ∈ (buildIndirectLoad x (.imm t n) valid p).vars ↔ ∃ e ∈ valid :: p.kind.uniforms, x ∈ e.vars := by
  cases hg with
  | rank1 src idx dst =>
    simp [buildIndirectLoad, IndirectLoad.vars, Region.vars, makeRegion, Exprs.vars, Expr.vars,
      IndirectLoadKind.uniforms]
  | @lutRow2D src idx dst row lane base hlane =>
    have hshape : x ∉ ((src.shape.getD 1 (.const 0)).toExpr).vars := by
      rw [List.getD_eq_getElem?_getD]
      cases hd : src.shape[1]? with
      | none => exact nofun
      | some d =>
        refine houtside (src, 2) ?_ d (List.mem_of_getElem? hd)
        exact List.mem_cons_of_mem _ (List.mem_append_right _ List.mem_cons_self)
    simp only [buildIndirectLoad, IndirectLoad.vars, Region.vars, makeRegion, makeRegion2D, Exprs.vars,
      Expr.vars, IndirectLoadKind.uniforms, List.append_nil, List.nil_append, List.mem_append,
      List.mem_cons, List.not_mem_nil, or_false, exists_eq_or_imp, exists_eq_left, hshape]
    tauto

theorem uniforms_eq {x : Var} {extent valid : Expr} {body s : Stmt} {p : IndirectLoadPattern}
    (hsplit : splitGuard x extent body = some (valid, s)) (hp : matchStoreBody s x = some p) :
    uniforms x extent body = valid :: p.kind.uniforms := by
  rw [uniforms, hsplit]
  simp only [hp, Option.elim_some]

/-- A rewritten loop whose row, lane base and bound mention neither the loop variable nor
the destination does what the call does. -/
theorem run_of_tryRewrite {x : Var} {lo extent : Expr} {body : Stmt} {call : IndirectLoad}
    (hwf : body.WellFormed x) (h : tryRewrite x lo extent body = some call)
    (hx : ∀ e ∈ uniforms x extent body, x ∉ e.vars)
    (hdst : ∀ e ∈ uniforms x extent body, call.dst.buffer ∉ e.reads) (kind : ForKind) (env : Env)
    (m : Mem V) :
    (Stmt.forLoop x lo extent kind body).run A env m = (Stmt.evaluate call).run A env m := by
  obtain ⟨valid, s, p, hsplit, hp, hb, rfl⟩ := tryRewrite_eq_some h
  obtain ⟨t', rfl⟩ := hb.min
  obtain ⟨t, n, rfl, hn⟩ := hb.extent
  have hbuffer : (buildIndirectLoad x (.imm t n) valid p).dst.buffer = p.dstBuffer := by
    rw [buildIndirectLoad]
    split <;> rfl
  rw [uniforms_eq hsplit hp] at hx hdst
  rw [hbuffer] at hdst
  have hg := gathers_of_matchStoreBody hp
  have hsrc := hg.src_ne_dst (fun a ha => hwf.rank a (accesses_of_splitGuard hsplit a ha)) hb.src
  exact run_loop_of_uniform hsplit hg hsrc hb.idx hx hdst kind hn env m

theorem mem_vars_of_tryRewrite_iff {x : Var} {lo extent : Expr} {body : Stmt} {call : IndirectLoad}
    (hwf : body.WellFormed x) (h : tryRewrite x lo extent body = some call) :
    x ∈ call.vars ↔ ∃ e ∈ uniforms x extent body, x ∈ e.vars := by
  obtain ⟨valid, s, p, hsplit, hp, hb, rfl⟩ := tryRewrite_eq_some h
  obtain ⟨t, n, rfl, -⟩ := hb.extent
  rw [uniforms_eq hsplit hp]
  exact (gathers_of_matchStoreBody hp).mem_vars_iff
    (fun a ha => hwf.outside a (accesses_of_splitGuard hsplit a ha)) t n valid

/-- Integers as values. -/
def intAlg : Alg ℤ := ⟨id, id, @id_eq ℤ, fun _ _ => 0⟩

/-- The loop variable. -/
def lane : Var := ⟨0, .int32⟩

/-- `O_UB`, of two lanes. -/
def outBuffer : Buffer := ⟨0, ⟨.float, 32⟩, .shared, [.const 2]⟩

/-- `if start + i < N: O_UB[i] = X[IDX_UB[i]]`. -/
def maskedGather : Stmt :=
  .ifThen (.lt (.add (.var ⟨1, .int32⟩) (.var lane)) (.var ⟨2, .int32⟩))
    (.store outBuffer (.cons (.var lane) .nil)
      (.load ⟨1, ⟨.float, 32⟩, .global, [.var ⟨3, .int32⟩]⟩
        (.cons (.load ⟨2, .int32, .shared, [.const 2]⟩ (.cons (.var lane) .nil)) .nil)))

theorem maskedGather_wellFormed : maskedGather.WellFormed lane := by
  refine ⟨?_, ?_⟩ <;> decide

/-- `O_UB[i] = LUT[i, CODES[i, i]]`. -/
def diagonalGather : Stmt :=
  .store outBuffer (.cons (.var lane) .nil)
    (.load ⟨1, ⟨.float, 32⟩, .global, [.const 2, .const 2]⟩
      (.cons (.var lane)
        (.cons (.load ⟨2, .int32, .shared, [.const 2, .const 2]⟩
          (.cons (.var lane) (.cons (.var lane) .nil))) .nil)))

/-- Every parallel loop that is rewritten is one that keeps its meaning. -/
def Stmt.Uniform : Stmt → Prop
  | .forLoop x lo extent .parallel body =>
    match tryRewrite x lo extent body with
    | some call =>
      body.WellFormed x ∧
        ∀ e ∈ uniforms x extent body, x ∉ e.vars ∧ call.dst.buffer ∉ e.reads
    | none => body.Uniform
  | .forLoop _ _ _ .serial body => body.Uniform
  | .ifThen _ s => s.Uniform
  | .ifThenElse _ s t => s.Uniform ∧ t.Uniform
  | .seq s t => s.Uniform ∧ t.Uniform
  | .store _ _ _ => True
  | .evaluate _ => True

/-- The pass keeps the meaning of such a program. -/
theorem visitStmt_run (A : Alg V) : ∀ (s : Stmt), s.Uniform → ∀ (env : Env) (m : Mem V),
    (visitStmt s).run A env m = s.run A env m := by
  intro s
  induction s with
  | store b indices value => exact fun _ _ _ => rfl
  | evaluate call => exact fun _ _ _ => rfl
  | ifThen c s ih =>
    intro h env m
    rw [visitStmt, Stmt.run, Stmt.run, ih h]
  | ifThenElse c s t ihs iht =>
    intro h env m
    rw [visitStmt, Stmt.run, Stmt.run, ihs h.1, iht h.2]
  | seq s t ihs iht =>
    intro h env m
    rw [visitStmt, Stmt.run, Stmt.run, ihs h.1, iht h.2]
  | forLoop x lo extent kind body ih =>
    intro h env m
    have hbody : body.Uniform → (Stmt.forLoop x lo extent kind (visitStmt body)).run A env m =
        (Stmt.forLoop x lo extent kind body).run A env m := by
      intro hbody
      rw [Stmt.run, Stmt.run]
      congr 1
      funext k m'
      exact ih hbody _ _
    cases kind with
    | serial =>
      rw [visitStmt]
      exact hbody h
    | parallel =>
      rw [Stmt.Uniform] at h
      rw [visitStmt]
      cases htry : tryRewrite x lo extent body with
      | none =>
        rw [htry] at h
        exact hbody h
      | some call =>
        rw [htry] at h
        exact (run_of_tryRewrite h.1 htry (fun e he => (h.2 e he).1) (fun e he => (h.2 e he).2)
          .parallel env m).symm

end TileLangNpuir.SimtLoad
