import Mathlib.Data.Int.Notation
import Mathlib.Data.Nat.Notation
import Mathlib.Data.List.Dedup
import Mathlib.Order.Lattice

/-!
# Launching a kernel with dynamic shapes

`tilelang/jit/jit_npu.py`: at compile time `_process_dynamic_symbolic` binds every variable in
the shape of a buffer to a place where it can be read off, and `_symbolic_var_promoter_pass`
appends the variables to the parameters. At a call `_calcu_grid` reads them off the arguments,
and the outputs are allocated with their shapes evaluated by `_eval_tir_expr`.

A variable is its name. An exception is `none`.
-/

namespace TileLangNpuir.JitLaunch

/-! ## Shapes -/

/-- Operators. The ones that only TVM's analyzer can evaluate are numbered; one with a single
operand has it twice. -/
inductive Op : Type where
  | add | sub | mul | floorDiv | div | mod | max | min
  | other (k : ℕ)
  deriving DecidableEq

/-- `PrimExpr`. -/
inductive Expr : Type where
  | var (x : ℕ)
  | imm (n : ℤ)
  | bin (o : Op) (a b : Expr)
  deriving DecidableEq

/-- What the other operators mean. -/
abbrev Sem : Type := ℕ → ℤ → ℤ → Option ℤ

/-- What operators mean in TIR; `Div` and `Mod` round to zero. -/
def Op.eval (sem : Sem) : Op → ℤ → ℤ → Option ℤ
  | .add, x, y => some (x + y)
  | .sub, x, y => some (x - y)
  | .mul, x, y => some (x * y)
  | .floorDiv, x, y => if y = 0 then none else some (x.fdiv y)
  | .div, x, y => if y = 0 then none else some (x.tdiv y)
  | .mod, x, y => if y = 0 then none else some (x.tmod y)
  | .max, x, y => some (x ⊔ y)
  | .min, x, y => some (x ⊓ y)
  | .other k, x, y => sem k x y

/-- The value of an expression, if it has one. -/
def Expr.eval (sem : Sem) (s : ℕ → ℤ) : Expr → Option ℤ
  | .var x => some (s x)
  | .imm n => some n
  | .bin o a b => do
    let x ← a.eval sem s
    let y ← b.eval sem s
    o.eval sem x y

/-- The variables of an expression, in post-order. -/
def Expr.vars : Expr → List ℕ
  | .var x => [x]
  | .imm _ => []
  | .bin _ a b => a.vars ++ b.vars

/-- `_collect_tir_vars`: each at its first place. -/
def collectTirVars (e : Expr) : List ℕ := e.vars.reverse.dedup.reverse

/-- `_detect_affine`: the coefficients of `a * var + b`. -/
def detectAffine (v : ℕ) : Expr → Option (ℤ × ℤ)
  | .var x => if x = v then some (1, 0) else none
  | .imm n => some (0, n)
  | .bin .add a b => do
    let l ← detectAffine v a
    let r ← detectAffine v b
    return (l.1 + r.1, l.2 + r.2)
  | .bin .sub a b => do
    let l ← detectAffine v a
    let r ← detectAffine v b
    return (l.1 - r.1, l.2 - r.2)
  | .bin .mul a b => do
    let l ← detectAffine v a
    let r ← detectAffine v b
    if l.1 = 0 then return (r.1 * l.2, r.2 * l.2)
    else if r.1 = 0 then return (l.1 * r.2, l.2 * r.2)
    else none
  | .bin .floorDiv a (.imm d) => do
    let l ← detectAffine v a
    if l.1 = 0 then return (0, l.2.fdiv d) else none
  | _ => none

/-! ## Compilation -/

/-- A parameter: a buffer with its shape, or a scalar. -/
inductive Param : Type where
  | buffer (shape : List Expr)
  | scalar (x : ℕ)

/-- `PrimFunc`, with what its grid text evaluates to once values are put in for names. -/
structure PrimFunc : Type where
  params : List Param
  gridfunc : (ℕ → Option ℤ) → Option (List ℤ)

/-- The shape of a parameter. -/
def Param.shape : Param → List Expr
  | .buffer shape => shape
  | .scalar _ => []

/-- A dimension of a buffer, with its place. -/
structure Dim : Type where
  param : ℕ
  dim : ℕ
  expr : Expr

/-- All dimensions of all buffers, in order. -/
def PrimFunc.dims (f : PrimFunc) : List Dim :=
  f.params.zipIdx.flatMap fun p => p.1.shape.zipIdx.map fun e => ⟨p.2, e.2, e.1⟩

/-- `var in params`. -/
def PrimFunc.isParam (f : PrimFunc) (v : ℕ) : Bool :=
  f.params.any fun
    | .scalar x => x = v
    | .buffer _ => false

/-- Where a variable is read off: a dimension that is the variable, or one that is affine in
it. -/
inductive Pos : Type where
  | direct (param dim : ℕ)
  | affine (param dim : ℕ) (a b : ℤ)

def Pos.param : Pos → ℕ
  | .direct i _ => i
  | .affine i _ _ _ => i

/-- Binding by a dimension that is the variable. -/
def bindDirect (v : ℕ) (d : Dim) : Option Pos :=
  if d.expr = .var v then some (.direct d.param d.dim) else none

/-- Binding by a composite dimension. -/
def bindAffine (v : ℕ) (d : Dim) : Option Pos :=
  match d.expr with
  | .var _ => none
  | e => match detectAffine v e with
    | some (a, b) => if a = 0 then none else some (.affine d.param d.dim a b)
    | none => none

/-- The binding of a variable: direct ones first. -/
def PrimFunc.binding (f : PrimFunc) (v : ℕ) : Option Pos :=
  match f.dims.findSome? (bindDirect v) with
  | some pos => some pos
  | none => f.dims.findSome? (bindAffine v)

/-- The variables in the shapes, in the order in which they are met. -/
def PrimFunc.allVars (f : PrimFunc) : List ℕ :=
  (f.dims.flatMap fun d => collectTirVars d.expr).reverse.dedup.reverse

/-- `_process_dynamic_symbolic`. -/
def processDynamicSymbolic (f : PrimFunc) : List (ℕ × Pos) :=
  f.allVars.filterMap fun v =>
    if f.isParam v then none else (f.binding v).map fun pos => (v, pos)

/-- `_symbolic_var_promoter_pass`: the variables that are appended to the parameters. -/
def promoted (f : PrimFunc) : List ℕ := (processDynamicSymbolic f).map Prod.fst

/-- `_normalize_out_idx`. -/
def normalizeOutIdx (total : ℕ) (outIdx : List ℤ) : Option (List ℕ) :=
  outIdx.mapM fun i =>
    let idx : ℤ := if 0 ≤ i then i else total + i
    if idx < 0 ∨ total ≤ idx then none else some idx.toNat

/-- An entry of `param_info`. -/
structure ParamInfo : Type where
  param : Param
  isOutput : Bool

/-- `_extract_param_info`. Scalars and buffers without dimensions cannot be outputs. -/
def extractParamInfo (params : List Param) (outIdx : List ℕ) : Option (List ParamInfo) :=
  params.zipIdx.mapM fun p =>
    let isOutput := p.2 ∈ outIdx
    if isOutput ∧ p.1.shape = [] then none else some ⟨p.1, isOutput⟩

/-- `JitKernel_NPU`. -/
structure Kernel : Type where
  paramInfo : List ParamInfo
  symbolic : List (ℕ × Pos)
  outIdx : List ℕ
  gridfunc : (ℕ → Option ℤ) → Option (List ℤ)

/-- Compilation; no `out_idx` is an empty one. -/
def compile (f : PrimFunc) (outIdx : List ℤ) : Option Kernel := do
  let outIdx ← normalizeOutIdx f.params.length outIdx
  let paramInfo ← extractParamInfo f.params outIdx
  return ⟨paramInfo, processDynamicSymbolic f, outIdx, f.gridfunc⟩

/-! ## Calls -/

/-- An argument: a tensor by its shape, or a number. -/
inductive Arg : Type where
  | tensor (shape : List ℤ)
  | scalar (n : ℤ)
  deriving DecidableEq

/-- `orig_to_input`. -/
def origToInput (infos : List ParamInfo) (i : ℕ) : Option ℕ :=
  match infos[i]? with
  | some p => if p.isOutput then none else some ((infos.take i).countP fun q => !q.isOutput)
  | none => none

/-- The value of a variable at its place. -/
def resolve (infos : List ParamInfo) (args : List Arg) (pos : Pos) : Option ℤ := do
  let argPos ← origToInput infos pos.param
  let arg ← args[argPos]?
  match arg, pos with
  | .tensor shape, .direct _ j => shape[j]?
  | .tensor shape, .affine _ j a b => (shape[j]?).map fun actual => (actual - b).fdiv a
  | .scalar _, _ => none

/-- `dynamic_val`. -/
def dynamicVal (vals : List (ℕ × ℤ)) (x : ℕ) : Option ℤ := (vals.find? fun p => p.1 = x).map Prod.snd

/-- `substitute`. -/
def substitute (dv : ℕ → Option ℤ) : Expr → Option Expr
  | .var x => (dv x).map .imm
  | .imm n => some (.imm n)
  | .bin o a b => do
    let a ← substitute dv a
    let b ← substitute dv b
    return .bin o a b

/-- What `_eval_tir_expr` computes for an operator; `//` and `%` round down. -/
def pyOp : Op → ℤ → ℤ → Option ℤ
  | .add, x, y => some (x + y)
  | .sub, x, y => some (x - y)
  | .mul, x, y => some (x * y)
  | .floorDiv, x, y => if y = 0 then none else some (x.fdiv y)
  | .div, x, y => if y = 0 then none else some (x.fdiv y)
  | .mod, x, y => if y = 0 then none else some (x.fmod y)
  | .max, x, y => some (x ⊔ y)
  | .min, x, y => some (x ⊓ y)
  | .other _, _, _ => none

/-- `_eval_tir_expr`; `simplify` is the analyzer, which gives a constant or not. -/
def evalTirExpr (simplify : Expr → Option ℤ) (dv : ℕ → Option ℤ) : Expr → Option ℤ
  | .var x => dv x
  | .imm n => some n
  | .bin (.other k) a b => (substitute dv (.bin (.other k) a b)).bind simplify
  | .bin o a b => do
    let x ← evalTirExpr simplify dv a
    let y ← evalTirExpr simplify dv b
    pyOp o x y

/-- `torch.empty`. -/
def torchEmpty (shape : List ℤ) : Option Arg := if ∀ n ∈ shape, 0 ≤ n then some (.tensor shape) else none

/-- The loop that puts the arguments together: outputs are allocated, inputs taken in order. -/
def fullArgs (simplify : Expr → Option ℤ) (dv : ℕ → Option ℤ) : List ParamInfo → List Arg → Option (List Arg)
  | [], _ => some []
  | p :: ps, args =>
    if p.isOutput then do
      let shape ← p.param.shape.mapM (evalTirExpr simplify dv)
      let out ← torchEmpty shape
      let rest ← fullArgs simplify dv ps args
      return out :: rest
    else match args with
      | [] => none
      | arg :: args => do
        let rest ← fullArgs simplify dv ps args
        return arg :: rest

/-- What the launcher is called with. -/
structure Launch : Type where
  grid : List ℤ
  args : List Arg
  extraArgs : List ℤ

/-- `JitKernel_NPU.__call__`. -/
def Kernel.call (k : Kernel) (simplify : Expr → Option ℤ) (args : List Arg) : Option Launch := do
  if args.length + k.outIdx.length ≠ k.paramInfo.length then none
  let vals ← k.symbolic.mapM fun p => (resolve k.paramInfo args p.2).map fun n => (p.1, n)
  let dv := dynamicVal vals
  let grid ← k.gridfunc dv
  let full ← fullArgs simplify dv k.paramInfo args
  return ⟨grid, full, vals.map Prod.snd⟩

end TileLangNpuir.JitLaunch
