import Mathlib.Data.Int.Basic
import Mathlib.Data.List.Basic

/-!
# Expressions of parallel loops

The scalar expressions `NpuLoopVectorize` looks at (`src/transform/npu_loop_vectorize.cc`):
buffer indices, and the right-hand sides of buffer stores. Values are of an
arbitrary type with uninterpreted operations; the laws asked of them are the ones
the pass relies on when it swaps operands.
-/

namespace TileLangNpuir.LoopVectorize

/-- Type codes of `DataType`. -/
inductive TypeCode : Type where
  | int | uint | float | bfloat
  deriving DecidableEq

/-- `DataType`, with one lane. -/
structure DType : Type where
  code : TypeCode
  bits : ℕ
  deriving DecidableEq

namespace DType

/-- `DataType::Bool()`. -/
def bool : DType := ⟨.uint, 1⟩

/-- `DataType::Int(32)`. -/
def int32 : DType := ⟨.int, 32⟩

/-- `is_int`. -/
def isInt (t : DType) : Bool := t.code = .int

/-- `is_float`. -/
def isFloat (t : DType) : Bool := t.code = .float

end DType

/-- A `tir::Var`. -/
structure Var : Type where
  id : ℕ
  dtype : DType
  deriving DecidableEq

/-- An integer expression: a buffer index, a shape or a loop bound. `app` stands
for every form the pass does not look into. -/
inductive Index : Type where
  | const (n : ℤ)
  | var (x : Var)
  | add (a b : Index)
  | sub (a b : Index)
  | cast (t : DType) (a : Index)
  | app (t : DType) (vars : List Var) (f : List ℤ → ℤ)

namespace Index

/-- The variables of an index. -/
def vars : Index → List Var
  | const _ => []
  | var x => [x]
  | add a b => a.vars ++ b.vars
  | sub a b => a.vars ++ b.vars
  | cast _ a => a.vars
  | app _ xs _ => xs

/-- `dtype()`. -/
def dtype : Index → DType
  | const _ => .int32
  | var x => x.dtype
  | add a _ => a.dtype
  | sub a _ => a.dtype
  | cast t _ => t
  | app t _ _ => t

/-- The value of an index. -/
def eval (ρ : Var → ℤ) : Index → ℤ
  | const n => n
  | var x => ρ x
  | add a b => a.eval ρ + b.eval ρ
  | sub a b => a.eval ρ - b.eval ρ
  | cast _ a => a.eval ρ
  | app _ xs f => f (xs.map ρ)

/-- An index depends on its variables only. -/
theorem eval_congr {ρ ρ' : Var → ℤ} {e : Index} (h : ∀ x ∈ e.vars, ρ x = ρ' x) :
    e.eval ρ = e.eval ρ' := by
  induction e with
  | const n => rfl
  | var x => exact h x List.mem_cons_self
  | add a b iha ihb =>
    rw [eval, eval, iha fun x hx => h x (List.mem_append_left _ hx),
      ihb fun x hx => h x (List.mem_append_right _ hx)]
  | sub a b iha ihb =>
    rw [eval, eval, iha fun x hx => h x (List.mem_append_left _ hx),
      ihb fun x hx => h x (List.mem_append_right _ hx)]
  | cast t a ih => exact ih h
  | app t xs f => exact congrArg f (List.map_congr_left h)

end Index

/-- A `tir::Buffer`. -/
structure Buffer : Type where
  /-- its identity -/
  id : ℕ
  /-- its shape -/
  shape : List Index
  /-- its element type -/
  dtype : DType

/-- The unary operators of `IsUnaryOp`. -/
inductive UnaryOp : Type where
  | exp | fabs | log | sqrt | rsqrt | sigmoid
  | cast (t : DType)
  deriving DecidableEq

/-- The binary operators of `IsBinaryOp`. -/
inductive BinaryOp : Type where
  | add | mul | sub | div | floorDiv | floorMod | min | max
  | lt | le | ge | gt | eq | ne
  deriving DecidableEq

namespace BinaryOp

/-- `IsCmpOp`. -/
def isCmp : BinaryOp → Bool
  | lt | le | ge | gt | eq | ne => true
  | _ => false

end BinaryOp

/-- The right-hand side of a store. `other` stands for every operator the pass
does not decompose; it keeps the variables and loads below it. -/
inductive Expr (V : Type) : Type where
  /-- `IntImm`, `FloatImm` -/
  | imm (x : V) (t : DType)
  | var (x : Var)
  | load (buf : Buffer) (indices : List Index)
  | unary (op : UnaryOp) (a : Expr V)
  | binary (op : BinaryOp) (a b : Expr V)
  /-- `tir.if_then_else` -/
  | ifThenElse (c t f : Expr V)
  | other (dtype : DType) (vars : List Var) (loads : List (Buffer × List Index))
      (f : List V → List V → V)

/-- The values programs compute with. -/
structure Alg (V : Type) : Type where
  unary : UnaryOp → V → V
  binary : BinaryOp → V → V → V
  select : V → V → V → V
  ofInt : ℤ → V
  toInt : V → ℤ
  toInt_ofInt : ∀ i, toInt (ofInt i) = i
  add_comm : ∀ a b, binary .add a b = binary .add b a
  mul_comm : ∀ a b, binary .mul a b = binary .mul b a
  min_comm : ∀ a b, binary .min a b = binary .min b a
  max_comm : ∀ a b, binary .max a b = binary .max b a
  eq_comm : ∀ a b, binary .eq a b = binary .eq b a
  ne_comm : ∀ a b, binary .ne a b = binary .ne b a
  lt_swap : ∀ a b, binary .lt a b = binary .gt b a
  le_swap : ∀ a b, binary .le a b = binary .ge b a

/-- Integers as values, with truth as one and zero. -/
def intAlg : Alg ℤ where
  unary _ x := x
  binary
    | .add, a, b => a + b
    | .mul, a, b => a * b
    | .sub, a, b => a - b
    | .div, a, b => a.tdiv b
    | .floorDiv, a, b => a.fdiv b
    | .floorMod, a, b => a.fmod b
    | .min, a, b => min a b
    | .max, a, b => max a b
    | .lt, a, b => if a < b then 1 else 0
    | .le, a, b => if a ≤ b then 1 else 0
    | .ge, a, b => if b ≤ a then 1 else 0
    | .gt, a, b => if b < a then 1 else 0
    | .eq, a, b => if a = b then 1 else 0
    | .ne, a, b => if a = b then 0 else 1
  select c t f := if c = 0 then f else t
  ofInt := id
  toInt := id
  toInt_ofInt := @id_eq ℤ
  add_comm := Int.add_comm
  mul_comm := Int.mul_comm
  min_comm := Int.min_comm
  max_comm := Int.max_comm
  eq_comm a b := by simp only [eq_comm]
  ne_comm a b := by simp only [eq_comm]
  lt_swap _ _ := rfl
  le_swap _ _ := rfl

/-- The values of the variables in scope. -/
abbrev Env (V : Type) : Type := Var → V

/-- The contents of every buffer, by buffer identity and index. -/
abbrev Mem (V : Type) : Type := ℕ → List ℤ → V

section

variable {V : Type} (A : Alg V)

/-- The integer values of the variables. -/
def Alg.ints (env : Env V) (x : Var) : ℤ := A.toInt (env x)

/-- The values of a list of indices. -/
def Alg.evals (env : Env V) (indices : List Index) : List ℤ :=
  indices.map (Index.eval (A.ints env))

/-- The element a load reads. -/
def Alg.load (env : Env V) (m : Mem V) (buf : Buffer) (indices : List Index) : V :=
  m buf.id (A.evals env indices)

namespace Expr

/-- The value of an expression. -/
def eval (env : Env V) (m : Mem V) : Expr V → V
  | imm x _ => x
  | var x => env x
  | load buf indices => A.load env m buf indices
  | unary op a => A.unary op (a.eval env m)
  | binary op a b => A.binary op (a.eval env m) (b.eval env m)
  | ifThenElse c t f => A.select (c.eval env m) (t.eval env m) (f.eval env m)
  | other _ vars loads f => f (vars.map env) (loads.map fun l => A.load env m l.1 l.2)

/-- The variables of an expression, those of its indices included. -/
def vars : Expr V → List Var
  | imm _ _ => []
  | var x => [x]
  | load _ indices => indices.flatMap Index.vars
  | unary _ a => a.vars
  | binary _ a b => a.vars ++ b.vars
  | ifThenElse c t f => c.vars ++ t.vars ++ f.vars
  | other _ xs loads _ => xs ++ loads.flatMap fun l => l.2.flatMap Index.vars

/-- The loads of an expression. -/
def loads : Expr V → List (Buffer × List Index)
  | imm _ _ => []
  | var _ => []
  | load buf indices => [(buf, indices)]
  | unary _ a => a.loads
  | binary _ a b => a.loads ++ b.loads
  | ifThenElse c t f => c.loads ++ t.loads ++ f.loads
  | other _ _ ls _ => ls

/-- `dtype()`. -/
def dtype : Expr V → DType
  | imm _ t => t
  | var x => x.dtype
  | load buf _ => buf.dtype
  | unary (.cast t) _ => t
  | unary _ a => a.dtype
  | binary op a _ => if op.isCmp then .bool else a.dtype
  | ifThenElse _ t _ => t.dtype
  | other t _ _ _ => t

end Expr

variable {A}

theorem Alg.evals_congr {env env' : Env V} {indices : List Index}
    (h : ∀ x ∈ indices.flatMap Index.vars, env x = env' x) :
    A.evals env indices = A.evals env' indices := by
  refine List.map_congr_left fun e he => Index.eval_congr fun x hx => ?_
  rw [Alg.ints, Alg.ints, h x (List.mem_flatMap.mpr ⟨e, he, hx⟩)]

/-- An expression depends on its variables and on the buffers it loads. -/
theorem Expr.eval_congr {env env' : Env V} {m m' : Mem V} {e : Expr V}
    (henv : ∀ x ∈ e.vars, env x = env' x) (hm : ∀ l ∈ e.loads, m l.1.id = m' l.1.id) :
    e.eval A env m = e.eval A env' m' := by
  induction e with
  | imm x t => rfl
  | var x => exact henv x List.mem_cons_self
  | load buf indices =>
    rw [eval, eval, Alg.load, Alg.load, Alg.evals_congr henv,
      hm (buf, indices) List.mem_cons_self]
  | unary op a ih => rw [eval, eval, ih henv hm]
  | binary op a b iha ihb =>
    rw [eval, eval,
      iha (fun x hx => henv x (List.mem_append_left _ hx))
        fun l hl => hm l (List.mem_append_left _ hl),
      ihb (fun x hx => henv x (List.mem_append_right _ hx))
        fun l hl => hm l (List.mem_append_right _ hl)]
  | ifThenElse c t f ihc iht ihf =>
    simp only [vars, loads, List.mem_append] at henv hm
    rw [eval, eval, ihc (fun x hx => henv x (.inl (.inl hx))) fun l hl => hm l (.inl (.inl hl)),
      iht (fun x hx => henv x (.inl (.inr hx))) fun l hl => hm l (.inl (.inr hl)),
      ihf (fun x hx => henv x (.inr hx)) fun l hl => hm l (.inr hl)]
  | other t xs ls f =>
    simp only [vars, loads, List.mem_append] at henv hm
    rw [eval, eval, List.map_congr_left fun x hx => henv x (.inl hx)]
    congr 1
    refine List.map_congr_left fun l hl => ?_
    rw [Alg.load, Alg.load, hm l hl,
      Alg.evals_congr fun x hx => henv x (.inr (List.mem_flatMap.mpr ⟨l, hl, hx⟩))]

end

end TileLangNpuir.LoopVectorize
