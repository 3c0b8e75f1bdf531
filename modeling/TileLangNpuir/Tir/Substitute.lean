import TileLangNpuir.Tir.Program

/-!
# Substitution

TVM's `Substitute` on the programs of `Tir.Program`. Binders are not renamed: TVM's variables
are bound once, so nothing is captured.
-/

namespace TileLangNpuir.Tir

mutual

def Expr.subst (x : Var) (e : Expr) : Expr → Expr
  | .int n => .int n
  | .var y => if y = x then e else .var y
  | .op f args => .op f (args.subst x e)
  | .load b indices => .load b (indices.subst x e)

def Exprs.subst (x : Var) (e : Expr) : Exprs → Exprs
  | .nil => .nil
  | .cons a as => .cons (Expr.subst x e a) (as.subst x e)

end

def AccessPtr.subst (x : Var) (e : Expr) (p : AccessPtr) : AccessPtr :=
  { p with offset := Expr.subst x e p.offset, extent := Expr.subst x e p.extent }

def Stmt.subst (x : Var) (e : Expr) : Stmt → Stmt
  | .nop => .nop
  | .seq s t => .seq (s.subst x e) (t.subst x e)
  | .store b value indices => .store b (Expr.subst x e value) (indices.subst x e)
  | .call f ptrs args => .call f (ptrs.map fun p => p.subst x e) (args.subst x e)
  | .ifThen c body => .ifThen (Expr.subst x e c) (body.subst x e)
  | .ifThenElse c s t => .ifThenElse (Expr.subst x e c) (s.subst x e) (t.subst x e)
  | .forLoop y min extent body => .forLoop y (Expr.subst x e min) (Expr.subst x e extent) (body.subst x e)
  | .letStmt y value body => .letStmt y (Expr.subst x e value) (body.subst x e)

section

variable {x : Var} {e : Expr} {env : Env} {m : Mem} {v : ℤ}

mutual

theorem Expr.eval_subst (h : e.eval env m = v) (a : Expr) :
    (Expr.subst x e a).eval env m = a.eval (env.set x v) m := by
  cases a with
  | int n => rfl
  | var y =>
    rw [Expr.subst, Expr.eval, Env.set]
    split
    · exact h
    · rfl
  | op f args => exact congrArg f (Exprs.eval_subst h args)
  | load b indices =>
    rw [Expr.subst, Expr.eval, Expr.eval, Exprs.eval_subst h indices]

theorem Exprs.eval_subst (h : e.eval env m = v) (as : Exprs) :
    (as.subst x e).eval env m = as.eval (env.set x v) m := by
  cases as with
  | nil => rfl
  | cons a as => rw [Exprs.subst, Exprs.eval, Exprs.eval, Expr.eval_subst h a, Exprs.eval_subst h as]

end

theorem AccessPtr.window_subst (h : e.eval env m = v) (p : AccessPtr) :
    (p.subst x e).window env m = p.window (env.set x v) m := by
  rw [AccessPtr.window, AccessPtr.window, ← Expr.eval_subst h, ← Expr.eval_subst h]
  rfl

end

/-- The expression stays what it is under the binders of the statement. -/
structure Fits (x : Var) (e : Expr) (s : Stmt) : Prop where
  notBound : x ∉ s.binders
  free : ∀ y ∈ e.vars, y ∉ s.binders

theorem eval_set_of_notMem {e : Expr} {env : Env} {v : ℤ} (h : ∀ m, e.eval env m = v) {y : Var}
    (hy : y ∉ e.vars) (i : ℤ) (m : Mem) : e.eval (env.set y i) m = v := by
  rw [← h m]
  exact e.eval_congr (fun z hz => env.set_of_ne y i (ne_of_mem_of_not_mem hz hy)) fun _ _ _ => rfl

/-- Running the substituted statement is running the statement with the value in `x`. -/
theorem Stmt.run_subst {x : Var} {e : Expr} {v : ℤ} (s : Stmt) (hfits : Fits x e s) {env : Env}
    (h : ∀ m, e.eval env m = v) (m : Mem) : (s.subst x e).run env m = s.run (env.set x v) m := by
  induction s generalizing env m with
  | nop => rfl
  | seq s t ihs iht =>
    have hs : Fits x e s := ⟨fun hx => hfits.notBound (List.mem_append_left _ hx),
      fun y hy hb => hfits.free y hy (List.mem_append_left _ hb)⟩
    have ht : Fits x e t := ⟨fun hx => hfits.notBound (List.mem_append_right _ hx),
      fun y hy hb => hfits.free y hy (List.mem_append_right _ hb)⟩
    rw [Stmt.subst, Stmt.run, Stmt.run, ihs hs h, iht ht h]
  | store b value indices =>
    rw [Stmt.subst, Stmt.run, Stmt.run, Expr.eval_subst (h m), Exprs.eval_subst (h m)]
  | call f ptrs args =>
    simp only [Stmt.subst, Stmt.run, List.map_map, Exprs.eval_subst (h m), Function.comp_def,
      AccessPtr.window_subst (h m)]
  | ifThen c body ih =>
    rw [Stmt.subst, Stmt.run, Stmt.run, Expr.eval_subst (h m), ih ⟨hfits.notBound, hfits.free⟩ h]
  | ifThenElse c s t ihs iht =>
    have hs : Fits x e s := ⟨fun hx => hfits.notBound (List.mem_append_left _ hx),
      fun y hy hb => hfits.free y hy (List.mem_append_left _ hb)⟩
    have ht : Fits x e t := ⟨fun hx => hfits.notBound (List.mem_append_right _ hx),
      fun y hy hb => hfits.free y hy (List.mem_append_right _ hb)⟩
    rw [Stmt.subst, Stmt.run, Stmt.run, Expr.eval_subst (h m), ihs hs h, iht ht h]
  | forLoop y min extent body ih =>
    have hbody : Fits x e body := ⟨fun hx => hfits.notBound (List.mem_cons_of_mem _ hx),
      fun z hz hb => hfits.free z hz (List.mem_cons_of_mem _ hb)⟩
    have hy : y ∉ e.vars := fun hy => hfits.free y hy List.mem_cons_self
    have hyx : y ≠ x := fun hyx => hfits.notBound (hyx ▸ List.mem_cons_self)
    have hstep : (fun i m => (body.subst x e).run (env.set y i) m) =
        fun i m => body.run ((env.set x v).set y i) m := by
      funext i m
      rw [ih hbody (eval_set_of_notMem h hy i), Env.set_comm _ _ _ hyx]
    rw [Stmt.subst, Stmt.run, Stmt.run, Expr.eval_subst (h m), Expr.eval_subst (h m), hstep]
  | letStmt y value body ih =>
    have hbody : Fits x e body := ⟨fun hx => hfits.notBound (List.mem_cons_of_mem _ hx),
      fun z hz hb => hfits.free z hz (List.mem_cons_of_mem _ hb)⟩
    have hy : y ∉ e.vars := fun hy => hfits.free y hy List.mem_cons_self
    have hyx : y ≠ x := fun hyx => hfits.notBound (hyx ▸ List.mem_cons_self)
    rw [Stmt.subst, Stmt.run, Stmt.run, Expr.eval_subst (h m),
      ih hbody (eval_set_of_notMem h hy _), Env.set_comm _ _ _ hyx]

end TileLangNpuir.Tir
