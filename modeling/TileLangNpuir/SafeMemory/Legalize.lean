import TileLangNpuir.Lib.CountedLoop
import Mathlib.Logic.Function.Basic
import Mathlib.Data.List.Basic

/-!
# Safe memory legalization

`LegalizeSafeMemoryAccess` (`src/transform/legalize_safe_memory_access.cc`) puts guards around
the stores of innermost loops: one condition for every bound of a global access that the
analyzer cannot prove, as nested conditionals around a store to global memory, and as
selects of a padding value in a store to shared or local memory.
-/

namespace TileLangNpuir.SafeMemory

abbrev Var : Type := ℕ

/-- Storage scopes, as far as they are told apart. -/
inductive Scope : Type where
  | global
  /-- `shared`, `shared.dyn`, `local`, `local.fragment` -/
  | onChip
  | other
deriving DecidableEq

/-- A dimension of a buffer. -/
inductive Dim : Type where
  | const (n : ℤ)
  | var (x : Var)
  | app (f : ℕ) (a b : Dim)
deriving DecidableEq

structure Buffer : Type where
  id : ℕ
  scope : Scope
  shape : List Dim
deriving DecidableEq

mutual

/-- A `PrimExpr`. `ite` is the call `if_then_else`, which evaluates one of its branches; `app`
stands for the operators that evaluate all their arguments. -/
inductive Expr (V : Type) : Type where
  | var (x : Var)
  | const (v : V)
  | lt (a b : Expr V)
  | ge (a b : Expr V)
  | app (f : ℕ) (args : Exprs V)
  | load (b : Buffer) (indices : Exprs V)
  | ite (c a b : Expr V)

inductive Exprs (V : Type) : Type where
  | nil
  | cons (e : Expr V) (es : Exprs V)

end

/-- Statements. `guard` tells the conditionals the pass put in; `call_extern` tells the calls
it looks at. -/
inductive Stmt (V : Type) : Type where
  | store (b : Buffer) (indices : Exprs V) (value : Expr V)
  | forLoop (x : Var) (lo extent : Expr V) (body : Stmt V)
  | ifThen (guard : Bool) (c : Expr V) (s : Stmt V)
  | ifThenElse (c : Expr V) (s t : Stmt V)
  | seq (s t : Stmt V)
  | evaluate (callExtern : Bool) (f : ℕ) (args : Exprs V)

abbrev Mem (V : Type) : Type := Buffer → List ℤ → V

abbrev Env : Type := Var → ℤ

/-- Values of buffer elements, with the integers among them, and what calls do. -/
structure Alg (V : Type) : Type where
  int : V → ℤ
  imm : ℤ → V
  int_imm : ∀ n, int (imm n) = n
  app : ℕ → List V → V
  call : ℕ → List V → Mem V → Mem V

variable {V : Type} (A : Alg V)

def Exprs.length : Exprs V → ℕ
  | .nil => 0
  | .cons _ es => es.length + 1

def Dim.toExpr : Dim → Expr V
  | .const n => .const (A.imm n)
  | .var x => .var x
  | .app f a b => .app f (.cons a.toExpr (.cons b.toExpr .nil))

mutual

def Expr.vars : Expr V → List Var
  | .var x => [x]
  | .const _ => []
  | .lt a b => a.vars ++ b.vars
  | .ge a b => a.vars ++ b.vars
  | .app _ args => args.vars
  | .load _ indices => indices.vars
  | .ite c a b => c.vars ++ (a.vars ++ b.vars)

def Exprs.vars : Exprs V → List Var
  | .nil => []
  | .cons e es => e.vars ++ es.vars

end

/-! ## Execution -/

mutual

def Expr.eval (env : Env) (m : Mem V) : Expr V → V
  | .var x => A.imm (env x)
  | .const v => v
  | .lt a b => A.imm (if A.int (a.eval env m) < A.int (b.eval env m) then 1 else 0)
  | .ge a b => A.imm (if A.int (b.eval env m) ≤ A.int (a.eval env m) then 1 else 0)
  | .app f args => A.app f (args.eval env m)
  | .load b indices => m b ((indices.eval env m).map A.int)
  | .ite c a b => if A.int (c.eval env m) ≠ 0 then a.eval env m else b.eval env m

def Exprs.eval (env : Env) (m : Mem V) : Exprs V → List V
  | .nil => []
  | .cons e es => e.eval env m :: es.eval env m

end

def Expr.toInt (e : Expr V) (env : Env) (m : Mem V) : ℤ := A.int (e.eval A env m)

/-- The condition holds. -/
def Expr.IsTrue (e : Expr V) (env : Env) (m : Mem V) : Prop := e.toInt A env m ≠ 0

instance (e : Expr V) (env : Env) (m : Mem V) : Decidable (e.IsTrue A env m) :=
  inferInstanceAs (Decidable (_ ≠ _))

def Mem.set (m : Mem V) (b : Buffer) (i : List ℤ) (v : V) : Mem V :=
  Function.update m b (Function.update (m b) i v)

def Stmt.run : Stmt V → Env → Mem V → Mem V
  | .store b indices value, env, m => m.set b ((indices.eval A env m).map A.int) (value.eval A env m)
  | .forLoop x lo extent body, env, m =>
    countLoop (fun k m' => body.run (Function.update env x k) m') (extent.toInt A env m).toNat
      (lo.toInt A env m) m
  | .ifThen _ c s, env, m => if c.IsTrue A env m then s.run env m else m
  | .ifThenElse c s t, env, m => if c.IsTrue A env m then s.run env m else t.run env m
  | .seq s t, env, m => t.run env (s.run env m)
  | .evaluate _ f args, env, m => A.call f (args.eval A env m) m

/-! ## Accesses -/

/-- Every index with a variable is within its dimension. -/
def Exprs.Within (env : Env) (m : Mem V) : Exprs V → List Dim → Prop
  | .cons i is, d :: ds =>
    (i.vars ≠ [] → 0 ≤ i.toInt A env m ∧ i.toInt A env m < (d.toExpr A).toInt A env m) ∧
      is.Within env m ds
  | _, _ => True

/-- An access to a buffer, with as many indices as it has dimensions. -/
def AccessSafe (env : Env) (m : Mem V) (b : Buffer) (indices : Exprs V) : Prop :=
  b.scope = .global → indices.length = b.shape.length → indices.Within A env m b.shape

mutual

/-- Every load that is executed is within its buffer. -/
def Expr.Safe (env : Env) (m : Mem V) : Expr V → Prop
  | .var _ => True
  | .const _ => True
  | .lt a b => a.Safe env m ∧ b.Safe env m
  | .ge a b => a.Safe env m ∧ b.Safe env m
  | .app _ args => args.Safe env m
  | .load b indices => indices.Safe env m ∧ AccessSafe A env m b indices
  | .ite c a b =>
    c.Safe env m ∧ (c.IsTrue A env m → a.Safe env m) ∧ (¬ c.IsTrue A env m → b.Safe env m)

def Exprs.Safe (env : Env) (m : Mem V) : Exprs V → Prop
  | .nil => True
  | .cons e es => e.Safe env m ∧ es.Safe env m

end

/-- The accesses a statement of an innermost loop makes in its stores, its external calls and
the guards around them are within their buffers. -/
def Stmt.InnerSafe : Stmt V → Env → Mem V → Prop
  | .store b indices value, env, m =>
    value.Safe A env m ∧ indices.Safe A env m ∧ AccessSafe A env m b indices
  | .ifThen guard c s, env, m => (guard = true → c.Safe A env m) ∧ (c.IsTrue A env m → s.InnerSafe env m)
  | .ifThenElse c s t, env, m =>
    (c.IsTrue A env m → s.InnerSafe env m) ∧ (¬ c.IsTrue A env m → t.InnerSafe env m)
  | .seq s t, env, m => s.InnerSafe env m ∧ t.InnerSafe env (s.run A env m)
  | .evaluate callExtern _ args, env, m => callExtern = true → args.Safe A env m
  | .forLoop _ _ _ _, _, _ => True

def Stmt.hasLoop : Stmt V → Bool
  | .forLoop _ _ _ _ => true
  | .ifThen _ _ s => s.hasLoop
  | .ifThenElse _ s t => s.hasLoop || t.hasLoop
  | .seq s t => s.hasLoop || t.hasLoop
  | _ => false

/-- The innermost loops only make accesses within the buffers, in every iteration. -/
def Stmt.LeafSafe : Stmt V → Env → Mem V → Prop
  | .forLoop x lo extent body, env, m =>
    ∀ k < (extent.toInt A env m).toNat,
      let env' := Function.update env x (lo.toInt A env m + k)
      let m' := countLoop (fun j m' => body.run A (Function.update env x j) m') k (lo.toInt A env m) m
      if body.hasLoop then body.LeafSafe env' m' else body.InnerSafe A env' m'
  | .ifThen _ c s, env, m => c.IsTrue A env m → s.LeafSafe env m
  | .ifThenElse c s t, env, m =>
    (c.IsTrue A env m → s.LeafSafe env m) ∧ (¬ c.IsTrue A env m → t.LeafSafe env m)
  | .seq s t, env, m => s.LeafSafe env m ∧ t.LeafSafe env (s.run A env m)
  | .store _ _ _, _, _ => True
  | .evaluate _ _ _, _, _ => True

/-- Every access that is executed is within its buffer, wherever it stands. -/
def Stmt.Safe : Stmt V → Env → Mem V → Prop
  | .store b indices value, env, m =>
    value.Safe A env m ∧ indices.Safe A env m ∧ AccessSafe A env m b indices
  | .forLoop x lo extent body, env, m =>
    lo.Safe A env m ∧ extent.Safe A env m ∧
      ∀ k < (extent.toInt A env m).toNat,
        body.Safe (Function.update env x (lo.toInt A env m + k))
          (countLoop (fun j m' => body.run A (Function.update env x j) m') k (lo.toInt A env m) m)
  | .ifThen _ c s, env, m => c.Safe A env m ∧ (c.IsTrue A env m → s.Safe env m)
  | .ifThenElse c s t, env, m =>
    c.Safe A env m ∧ (c.IsTrue A env m → s.Safe env m) ∧ (¬ c.IsTrue A env m → t.Safe env m)
  | .seq s t, env, m => s.Safe env m ∧ t.Safe env (s.run A env m)
  | .evaluate _ _ args, env, m => args.Safe A env m

/-! ## The analyzer -/

/-- What is known where the pass is: the ranges of the enclosing loops, and the conditions of
the conditionals around them. -/
inductive Fact (V : Type) : Type where
  | loop (x : Var) (lo extent : Expr V)
  | cond (c : Expr V)
  | notCond (c : Expr V)

/-- The fact held when the loop or the conditional was entered. -/
def Fact.Holds (env : Env) : Fact V → Prop
  | .loop x lo extent =>
    ∃ m, lo.toInt A env m ≤ env x ∧ env x < lo.toInt A env m + extent.toInt A env m
  | .cond c => ∃ m, c.IsTrue A env m
  | .notCond c => ∃ m, ¬ c.IsTrue A env m

def Fact.vars : Fact V → List Var
  | .loop x lo extent => x :: (lo.vars ++ extent.vars)
  | .cond c => c.vars
  | .notCond c => c.vars

/-- `arith::Analyzer::CanProve`, which only proves what is true. -/
structure Analyzer : Type where
  canProve : List (Fact V) → Expr V → Bool
  sound : ∀ {ctx c}, canProve ctx c = true →
    ∀ env m, (∀ f ∈ ctx, f.Holds A env) → c.IsTrue A env m

variable {A} (P : Analyzer A) (ctx : List (Fact V))

/-! ## The pass -/

/-- A condition that cannot be proved. -/
def unproved (c : Expr V) : List (Expr V) := if P.canProve ctx c then [] else [c]

/-- The bounds of the indices of an access. -/
def indexConditions : Exprs V → List Dim → List (Expr V)
  | .cons i is, d :: ds =>
    (if i.vars = [] then []
      else unproved P ctx (.lt i (d.toExpr A)) ++ unproved P ctx (.ge i (.const (A.imm 0)))) ++
      indexConditions is ds
  | _, _ => []

/-- `GlobalMemChecker::CheckBufferIndices`, of a global buffer. -/
def checkBufferIndices (b : Buffer) (indices : Exprs V) : List (Expr V) :=
  if b.scope = .global ∧ indices.length = b.shape.length then indexConditions P ctx indices b.shape
  else []

mutual

/-- `GlobalMemChecker`: the conditions of an expression, those of an access before those of
its indices. -/
def Expr.conditions : Expr V → List (Expr V)
  | .var _ => []
  | .const _ => []
  | .lt a b => a.conditions ++ b.conditions
  | .ge a b => a.conditions ++ b.conditions
  | .app _ args => args.conditions
  | .load b indices => checkBufferIndices P ctx b indices ++ indices.conditions
  | .ite c a b => c.conditions ++ (a.conditions ++ b.conditions)

def Exprs.conditions : Exprs V → List (Expr V)
  | .nil => []
  | .cons e es => e.conditions ++ es.conditions

end

/-- The conditions of a store. -/
def storeConditions (b : Buffer) (indices : Exprs V) (value : Expr V) : List (Expr V) :=
  checkBufferIndices P ctx b indices ++ (value.conditions P ctx ++ indices.conditions P ctx)

/-- Nested conditionals, the last condition outermost. -/
def guardStmt (conditions : List (Expr V)) (s : Stmt V) : Stmt V :=
  conditions.foldl (fun s c => .ifThen true c s) s

/-- Nested selects, the last condition outermost. -/
def guardValue (conditions : List (Expr V)) (value : Expr V) (pad : V) : Expr V :=
  conditions.foldl (fun v c => .ite c v (.const pad)) value

variable (padding : Buffer → V)

/-- `SafeMemorysRewriter::VisitStmt_(const BufferStoreNode *)`. The value is never an
`IfThenElseNode`, which is a statement. -/
def rewriteStore (b : Buffer) (indices : Exprs V) (value : Expr V) : Option (Stmt V) :=
  let conditions := storeConditions P ctx b indices value
  if conditions.isEmpty then some (.store b indices value)
  else
    match b.scope with
    | .global => some (guardStmt conditions (.store b indices value))
    | .onChip => some (.store b indices (guardValue conditions value (padding b)))
    | .other => none

/-- `SafeMemorysRewriter`. -/
def rewriteBody : Stmt V → Option (Stmt V)
  | .store b indices value => rewriteStore P ctx padding b indices value
  | .evaluate callExtern f args =>
    if callExtern then some (guardStmt (args.conditions P ctx) (.evaluate callExtern f args))
    else some (.evaluate callExtern f args)
  | .ifThen guard c s => (rewriteBody s).map (.ifThen guard c)
  | .ifThenElse c s t => (rewriteBody s).bind fun s' => (rewriteBody t).map (.ifThenElse c s')
  | .seq s t => (rewriteBody s).bind fun s' => (rewriteBody t).map (.seq s')
  | .forLoop x lo extent body => (rewriteBody body).map (.forLoop x lo extent)

/-- `SafeMemoryLegalizer`. -/
def legalize (ctx : List (Fact V)) : Stmt V → Option (Stmt V)
  | .forLoop x lo extent body =>
    let ctx := .loop x lo extent :: ctx
    if body.hasLoop then (legalize ctx body).map (.forLoop x lo extent)
    else (rewriteBody P ctx padding body).map (.forLoop x lo extent)
  | .ifThen guard c s => (legalize (.cond c :: ctx) s).map (.ifThen guard c)
  | .ifThenElse c s t =>
    (legalize (.cond c :: ctx) s).bind fun s' =>
      (legalize (.notCond c :: ctx) t).map (.ifThenElse c s')
  | .seq s t => (legalize ctx s).bind fun s' => (legalize ctx t).map (.seq s')
  | s => some s

end TileLangNpuir.SafeMemory
