import TileLangNpuir.Lib.CountedLoop
import TileLangNpuir.Lib.RowMajor

/-!
# TIR programs

The expressions and statements that the passes for other targets rewrite, and what they do.
An element is the integer its bits spell, so an operator is any function on integers. A buffer
is kept in row-major order under its `data` variable, where `tvm_access_ptr` sees it too.
-/

namespace TileLangNpuir.Tir

open RowMajor

/-- The identity of a `tir::VarNode`. -/
abbrev Var : Type := ℕ

/-- A `tir::BufferNode` without strides; `data` is its variable. -/
structure Buffer : Type where
  data : Var
  shape : List ℤ
deriving DecidableEq

mutual

/-- A `PrimExpr`. -/
inductive Expr : Type where
  | int (n : ℤ)
  | var (x : Var)
  /-- any operator or call without effects -/
  | op (f : List ℤ → ℤ) (args : Exprs)
  | load (b : Buffer) (indices : Exprs)

inductive Exprs : Type where
  | nil
  | cons (e : Expr) (es : Exprs)

end

/-- The arguments of a `tvm_access_ptr`. -/
structure AccessPtr : Type where
  buffer : Buffer
  offset : Expr
  extent : Expr

/-- An intrinsic: from what it sees through its pointers and the values of its other arguments,
what it puts through each of them. -/
abbrev Intrinsic : Type := List (ℤ → ℤ) → List ℤ → List (ℤ → Option ℤ)

/-- A `Stmt`. A `BlockRealize` is `ifThen`, on its predicate. -/
inductive Stmt : Type where
  | nop
  | seq (s t : Stmt)
  | store (b : Buffer) (value : Expr) (indices : Exprs)
  | call (f : Intrinsic) (ptrs : List AccessPtr) (args : Exprs)
  | ifThen (c : Expr) (body : Stmt)
  | ifThenElse (c : Expr) (thenCase elseCase : Stmt)
  | forLoop (x : Var) (min extent : Expr) (body : Stmt)
  | letStmt (x : Var) (value : Expr) (body : Stmt)

/-- An element of a buffer, by its row-major number. -/
abbrev Cell : Type := Var × ℤ

abbrev Mem : Type := Cell → ℤ

abbrev Env : Type := Var → ℤ

namespace Expr

/-- A binary operator. -/
def binary (f : ℤ → ℤ → ℤ) (a b : Expr) : Expr :=
  .op (fun vs => f (vs.getD 0 0) (vs.getD 1 0)) (.cons a (.cons b .nil))

def add (a b : Expr) : Expr := binary (· + ·) a b

def sub (a b : Expr) : Expr := binary (· - ·) a b

def mul (a b : Expr) : Expr := binary (· * ·) a b

/-- `floormod`. -/
def floormod (a b : Expr) : Expr := binary Int.fmod a b

def le (a b : Expr) : Expr := binary (fun x y => if x ≤ y then 1 else 0) a b

def lt (a b : Expr) : Expr := binary (fun x y => if x < y then 1 else 0) a b

def and (a b : Expr) : Expr := binary (fun x y => if x ≠ 0 ∧ y ≠ 0 then 1 else 0) a b

end Expr

/-! ## Execution -/

mutual

def Expr.eval (env : Env) (m : Mem) : Expr → ℤ
  | .int n => n
  | .var x => env x
  | .op f args => f (args.eval env m)
  | .load b indices => m (b.data, flatten b.shape (indices.eval env m))

def Exprs.eval (env : Env) (m : Mem) : Exprs → List ℤ
  | .nil => []
  | .cons e es => e.eval env m :: es.eval env m

end

/-- The elements an access pointer gives access to. -/
structure Window : Type where
  data : Var
  offset : ℤ
  extent : ℤ

/-- The element is in reach of the pointer. -/
def Window.Covers (w : Window) (c : Cell) : Prop :=
  c.1 = w.data ∧ w.offset ≤ c.2 ∧ c.2 < w.offset + w.extent

instance (w : Window) (c : Cell) : Decidable (w.Covers c) :=
  inferInstanceAs (Decidable (_ ∧ _ ∧ _))

def Window.view (m : Mem) (w : Window) (k : ℤ) : ℤ :=
  if 0 ≤ k ∧ k < w.extent then m (w.data, w.offset + k) else 0

def Window.put (w : Window) (update : ℤ → Option ℤ) (m : Mem) : Mem := fun c =>
  if w.Covers c then (update (c.2 - w.offset)).getD (m c) else m c

def putAll : List Window → List (ℤ → Option ℤ) → Mem → Mem
  | w :: ws, u :: us, m => putAll ws us (w.put u m)
  | _, _, m => m

def AccessPtr.window (env : Env) (m : Mem) (p : AccessPtr) : Window :=
  ⟨p.buffer.data, p.offset.eval env m, p.extent.eval env m⟩

def Env.set (env : Env) (x : Var) (v : ℤ) : Env := fun y => if y = x then v else env y

def Mem.set (m : Mem) (c : Cell) (v : ℤ) : Mem := fun d => if d = c then v else m d

def Stmt.run : Stmt → Env → Mem → Mem
  | .nop, _, m => m
  | .seq s t, env, m => t.run env (s.run env m)
  | .store b value indices, env, m =>
    m.set (b.data, flatten b.shape (indices.eval env m)) (value.eval env m)
  | .call f ptrs args, env, m =>
    let windows := ptrs.map fun p => p.window env m
    putAll windows (f (windows.map fun w => w.view m) (args.eval env m)) m
  | .ifThen c body, env, m => if c.eval env m ≠ 0 then body.run env m else m
  | .ifThenElse c s t, env, m => if c.eval env m ≠ 0 then s.run env m else t.run env m
  | .forLoop x min extent body, env, m =>
    countLoop (fun i m => body.run (env.set x i) m) (extent.eval env m).toNat (min.eval env m) m
  | .letStmt x value body, env, m => body.run (env.set x (value.eval env m)) m

/-! ## Expressions -/

section

variable (env : Env) (m : Mem) (a b : Expr)

@[simp]
theorem eval_binary (f : ℤ → ℤ → ℤ) :
    (Expr.binary f a b).eval env m = f (a.eval env m) (b.eval env m) := rfl

@[simp]
theorem eval_int (n : ℤ) : (Expr.int n).eval env m = n := rfl

@[simp]
theorem eval_var (x : Var) : (Expr.var x).eval env m = env x := rfl

@[simp]
theorem eval_add : (a.add b).eval env m = a.eval env m + b.eval env m := rfl

@[simp]
theorem eval_sub : (a.sub b).eval env m = a.eval env m - b.eval env m := rfl

@[simp]
theorem eval_mul : (a.mul b).eval env m = a.eval env m * b.eval env m := rfl

@[simp]
theorem eval_floormod : (a.floormod b).eval env m = (a.eval env m).fmod (b.eval env m) := rfl

theorem eval_le : (a.le b).eval env m ≠ 0 ↔ a.eval env m ≤ b.eval env m := by
  simp [Expr.le]

theorem eval_lt : (a.lt b).eval env m ≠ 0 ↔ a.eval env m < b.eval env m := by
  simp [Expr.lt]

theorem eval_and : (a.and b).eval env m ≠ 0 ↔ a.eval env m ≠ 0 ∧ b.eval env m ≠ 0 := by
  simp [Expr.and]

end

/-! ## Environments -/

section

variable (env : Env) (x : Var) (v : ℤ)

@[simp]
theorem Env.set_self : env.set x v x = v := if_pos rfl

theorem Env.set_of_ne {y : Var} (h : y ≠ x) : env.set x v y = env y := if_neg h

theorem Env.set_comm {y : Var} (h : y ≠ x) (w : ℤ) :
    (env.set x v).set y w = (env.set y w).set x v := by
  funext z
  simp only [Env.set]
  split_ifs with hy hx
  · exact absurd (hy.symm.trans hx) h
  · rfl
  · rfl
  · rfl

theorem Env.set_set (w : ℤ) : (env.set x v).set x w = env.set x w := by
  funext z
  simp only [Env.set]
  split <;> rfl

end

/-! ## Variables and buffers that occur -/

mutual

def Expr.vars : Expr → List Var
  | .int _ => []
  | .var x => [x]
  | .op _ args => args.vars
  | .load _ indices => indices.vars

def Exprs.vars : Exprs → List Var
  | .nil => []
  | .cons e es => e.vars ++ es.vars

end

mutual

/-- The buffers that are loaded from. -/
def Expr.loads : Expr → List Buffer
  | .int _ => []
  | .var _ => []
  | .op _ args => args.loads
  | .load b indices => b :: indices.loads

def Exprs.loads : Exprs → List Buffer
  | .nil => []
  | .cons e es => e.loads ++ es.loads

end

/-- The variables that loops and `LetStmt`s bind. -/
def Stmt.binders : Stmt → List Var
  | .nop => []
  | .seq s t => s.binders ++ t.binders
  | .store _ _ _ => []
  | .call _ _ _ => []
  | .ifThen _ body => body.binders
  | .ifThenElse _ s t => s.binders ++ t.binders
  | .forLoop x _ _ body => x :: body.binders
  | .letStmt x _ body => x :: body.binders

/-- The buffers that are accessed. -/
def Stmt.buffers : Stmt → List Buffer
  | .nop => []
  | .seq s t => s.buffers ++ t.buffers
  | .store b value indices => b :: (value.loads ++ indices.loads)
  | .call _ ptrs args =>
    ptrs.flatMap (fun p => p.buffer :: (p.offset.loads ++ p.extent.loads)) ++ args.loads
  | .ifThen c body => c.loads ++ body.buffers
  | .ifThenElse c s t => c.loads ++ (s.buffers ++ t.buffers)
  | .forLoop _ min extent body => min.loads ++ (extent.loads ++ body.buffers)
  | .letStmt _ value body => value.loads ++ body.buffers

/-- The access pointers. -/
def Stmt.ptrs : Stmt → List AccessPtr
  | .nop => []
  | .seq s t => s.ptrs ++ t.ptrs
  | .store _ _ _ => []
  | .call _ ptrs _ => ptrs
  | .ifThen _ body => body.ptrs
  | .ifThenElse _ s t => s.ptrs ++ t.ptrs
  | .forLoop _ _ _ body => body.ptrs
  | .letStmt _ _ body => body.ptrs

/-- The variables that occur, apart from the places where they are bound. -/
def Stmt.vars : Stmt → List Var
  | .nop => []
  | .seq s t => s.vars ++ t.vars
  | .store _ value indices => value.vars ++ indices.vars
  | .call _ ptrs args => ptrs.flatMap (fun p => p.offset.vars ++ p.extent.vars) ++ args.vars
  | .ifThen c body => c.vars ++ body.vars
  | .ifThenElse c s t => c.vars ++ (s.vars ++ t.vars)
  | .forLoop _ min extent body => min.vars ++ (extent.vars ++ body.vars)
  | .letStmt _ value body => value.vars ++ body.vars

mutual

/-- The value depends on the variables and the loaded buffers only. -/
theorem Expr.eval_congr {env env' : Env} {m m' : Mem} (e : Expr) (hvars : ∀ x ∈ e.vars, env x = env' x)
    (hloads : ∀ b ∈ e.loads, ∀ k, m (b.data, k) = m' (b.data, k)) :
    e.eval env m = e.eval env' m' := by
  cases e with
  | int n => rfl
  | var x => exact hvars x List.mem_cons_self
  | op f args => exact congrArg f (args.eval_congr hvars hloads)
  | load b indices =>
    have hindices : indices.eval env m = indices.eval env' m' :=
      indices.eval_congr hvars fun c hc => hloads c (List.mem_cons_of_mem b hc)
    rw [Expr.eval, Expr.eval, hindices]
    exact hloads b List.mem_cons_self _

theorem Exprs.eval_congr {env env' : Env} {m m' : Mem} (es : Exprs)
    (hvars : ∀ x ∈ es.vars, env x = env' x)
    (hloads : ∀ b ∈ es.loads, ∀ k, m (b.data, k) = m' (b.data, k)) :
    es.eval env m = es.eval env' m' := by
  cases es with
  | nil => rfl
  | cons e es =>
    rw [Exprs.eval, Exprs.eval,
      e.eval_congr (fun x hx => hvars x (List.mem_append_left _ hx))
        fun b hb => hloads b (List.mem_append_left _ hb),
      es.eval_congr (fun x hx => hvars x (List.mem_append_right _ hx))
        fun b hb => hloads b (List.mem_append_right _ hb)]

end

theorem Expr.eval_congr_env {env env' : Env} (e : Expr) (m : Mem) (h : ∀ x ∈ e.vars, env x = env' x) :
    e.eval env m = e.eval env' m := e.eval_congr h fun _ _ _ => rfl

theorem Exprs.eval_congr_env {env env' : Env} (es : Exprs) (m : Mem)
    (h : ∀ x ∈ es.vars, env x = env' x) : es.eval env m = es.eval env' m :=
  es.eval_congr h fun _ _ _ => rfl

theorem Env.set_agree {env env' : Env} {x : Var} {vars : List Var}
    (h : ∀ y ∈ vars, env y = env' y) (v : ℤ) : ∀ y ∈ vars, env.set x v y = env'.set x v y := by
  intro y hy
  simp only [Env.set, h y hy]

/-- What a statement does depends on the variables that occur only. -/
theorem Stmt.run_congr_env (s : Stmt) {env env' : Env} (h : ∀ x ∈ s.vars, env x = env' x) (m : Mem) :
    s.run env m = s.run env' m := by
  induction s generalizing env env' m with
  | nop => rfl
  | seq s t ihs iht =>
    rw [Stmt.run, Stmt.run, ihs fun x hx => h x (List.mem_append_left _ hx),
      iht fun x hx => h x (List.mem_append_right _ hx)]
  | store b value indices =>
    rw [Stmt.run, Stmt.run, value.eval_congr_env m fun x hx => h x (List.mem_append_left _ hx),
      indices.eval_congr_env m fun x hx => h x (List.mem_append_right _ hx)]
  | call f ptrs args =>
    have hptrs : (ptrs.map fun p => p.window env m) = ptrs.map fun p => p.window env' m := by
      refine List.map_congr_left fun p hp => ?_
      have hmem : ∀ x ∈ p.offset.vars ++ p.extent.vars, env x = env' x := fun x hx =>
        h x (List.mem_append_left _ (List.mem_flatMap.mpr ⟨p, hp, hx⟩))
      rw [AccessPtr.window, AccessPtr.window,
        p.offset.eval_congr_env m fun x hx => hmem x (List.mem_append_left _ hx),
        p.extent.eval_congr_env m fun x hx => hmem x (List.mem_append_right _ hx)]
    rw [Stmt.run, Stmt.run, hptrs,
      args.eval_congr_env m fun x hx => h x (List.mem_append_right _ hx)]
  | ifThen c body ih =>
    rw [Stmt.run, Stmt.run, c.eval_congr_env m fun x hx => h x (List.mem_append_left _ hx),
      ih fun x hx => h x (List.mem_append_right _ hx)]
  | ifThenElse c s t ihs iht =>
    have hrest : ∀ x ∈ s.vars ++ t.vars, env x = env' x := fun x hx =>
      h x (List.mem_append_right _ hx)
    rw [Stmt.run, Stmt.run, c.eval_congr_env m fun x hx => h x (List.mem_append_left _ hx),
      ihs fun x hx => hrest x (List.mem_append_left _ hx),
      iht fun x hx => hrest x (List.mem_append_right _ hx)]
  | forLoop x min extent body ih =>
    have hrest : ∀ y ∈ extent.vars ++ body.vars, env y = env' y := fun y hy =>
      h y (List.mem_append_right _ hy)
    have hbody : (fun i m => body.run (env.set x i) m) = fun i m => body.run (env'.set x i) m := by
      funext i m
      exact ih (Env.set_agree (fun y hy => hrest y (List.mem_append_right _ hy)) i) m
    rw [Stmt.run, Stmt.run, min.eval_congr_env m fun y hy => h y (List.mem_append_left _ hy),
      extent.eval_congr_env m fun y hy => hrest y (List.mem_append_left _ hy), hbody]
  | letStmt x value body ih =>
    rw [Stmt.run, Stmt.run, value.eval_congr_env m fun y hy => h y (List.mem_append_left _ hy)]
    exact ih (Env.set_agree (fun y hy => h y (List.mem_append_right _ hy)) _) m

end TileLangNpuir.Tir
