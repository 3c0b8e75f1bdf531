import Mathlib.Data.Int.Notation
import Mathlib.Data.Nat.Notation
import Mathlib.Logic.Function.Basic

/-!
# Scalar expressions in the code generators

How `CodeGenTileLangNPUIRAPI` and `CodeGenTileLangNPUIRDEV` lower scalar expressions and
buffer stores into one MLIR block (`src/target/codegen_npuir_api.cc`,
`src/target/codegen_npuir_dev.cc`): `prim_expr_map` remembers the value of an expression
by its structure, and `mlir_value_map` the index cast of a value. The two generators
differ in `BinaryOpCodegen`, which checks the operands of a remembered operation in the
one and does not in the other.

Values are of an arbitrary type. What an operator means and what the operation emitted for
it computes are two things (`Lang.src` and `Lang.tgt`).
-/

namespace TileLangNpuir.ScalarCache

/-! ## Expressions -/

/-- The operators with two operands. -/
inductive BinOp : Type where
  | add | sub | mul | div | floorDiv | floorMod | mod | min | max
  | lt | le | gt | ge | eq | ne | and | or
  deriving DecidableEq

/-- What the choice of an operation goes by. -/
inductive TypeClass : Type where
  | int | uint | float
  deriving DecidableEq

mutual

/-- Scalar expressions; `C` are the immediates and `U` the operators with one operand. -/
inductive Expr (C U : Type) : Type where
  | imm (c : C)
  | var (x : ℕ)
  | un (o : U) (a : Expr C U)
  | bin (o : BinOp) (t : TypeClass) (a b : Expr C U)
  | load (b : ℕ) (is : Exprs C U)

/-- Indices. -/
inductive Exprs (C U : Type) : Type where
  | nil
  | cons (e : Expr C U) (es : Exprs C U)

end

deriving instance DecidableEq for Expr, Exprs

/-- A meaning of the operators. -/
structure Ops (U V : Type) : Type where
  un : U → V → V
  bin : BinOp → TypeClass → V → V → V

/-- What expressions mean, and what the emitted operations compute. -/
structure Lang (C U V : Type) : Type where
  const : C → V
  index : V → ℤ
  src : Ops U V
  tgt : Ops U V

/-- Buffer contents. -/
abbrev Mem (V : Type) : Type := ℕ → List ℤ → V

variable {C U V : Type}

section

variable (L : Lang C U V) (ρ : ℕ → V) (m : Mem V)

mutual

/-- The value of an expression. -/
def Expr.eval : Expr C U → V
  | .imm c => L.const c
  | .var x => ρ x
  | .un o a => L.src.un o a.eval
  | .bin o t a b => L.src.bin o t a.eval b.eval
  | .load b is => m b is.eval

/-- The values of indices. -/
def Exprs.eval : Exprs C U → List ℤ
  | .nil => []
  | .cons e es => L.index e.eval :: es.eval

end

end

/-- The statements of a block. A tile operation computes a buffer from others and from
scalars. -/
inductive Stmt (C U V : Type) : Type where
  | store (b : ℕ) (is : Exprs C U) (e : Expr C U)
  | eval (e : Expr C U)
  | tile (dst : ℕ) (srcs : List ℕ) (es : List (Expr C U))
      (f : List (List ℤ → V) → List V → List ℤ → V)

/-- One statement. -/
def Stmt.exec (L : Lang C U V) (ρ : ℕ → V) (m : Mem V) : Stmt C U V → Mem V
  | .store b is e => Function.update m b (Function.update (m b) (is.eval L ρ m) (e.eval L ρ m))
  | .eval _ => m
  | .tile dst srcs es f => Function.update m dst (f (srcs.map m) (es.map (Expr.eval L ρ m)))

/-! ## Emitted operations -/

/-- A value of the block: a variable, the tensor a buffer enters the block with, or the
result of an operation. -/
inductive Val : Type where
  | var (x : ℕ)
  | tensor (b : ℕ)
  | res (n : ℕ)
  deriving DecidableEq

/-- A buffer as the operand of a tile operation. -/
inductive Src : Type where
  | memref (b : ℕ)
  | tensor (v : Val)

/-- Operations. What is emitted for one operator is one of them. -/
inductive Instr (C U V : Type) : Type where
  | const (c : C)
  | un (o : U) (a : Val)
  | bin (o : BinOp) (t : TypeClass) (a b : Val)
  | indexCast (a : Val)
  | load (b : ℕ) (is : List Val)
  | extract (t : Val) (is : List Val)
  | store (v : Val) (b : ℕ) (is : List Val)
  | insert (v t : Val) (is : List Val)
  | tile (f : List (List ℤ → V) → List V → List ℤ → V) (srcs : List Src) (es : List Val)
  | tileStore (f : List (List ℤ → V) → List V → List ℤ → V) (srcs : List Src) (es : List Val) (b : ℕ)

/-- What an operation gives. -/
inductive Value (V : Type) : Type where
  | scalar (v : V)
  | index (i : ℤ)
  | tensor (t : List ℤ → V)
  | none

namespace Value

variable [Inhabited V]

def toScalar : Value V → V
  | .scalar v => v
  | _ => default

def toIndex : Value V → ℤ
  | .index i => i
  | _ => 0

def toTensor : Value V → List ℤ → V
  | .tensor t => t
  | _ => default

end Value

/-- The results so far, and the memrefs. -/
structure Machine (V : Type) : Type where
  results : List (Value V)
  mem : Mem V

section

variable [Inhabited V] (L : Lang C U V) (ρ : ℕ → V) (m₀ : Mem V)

/-- The value that a name stands for. -/
def Machine.get (M : Machine V) : Val → Value V
  | .var x => .scalar (ρ x)
  | .tensor b => .tensor (m₀ b)
  | .res n => M.results[n]?.getD .none

/-- Scalars. -/
def Machine.scalars (M : Machine V) (vs : List Val) : List V :=
  vs.map fun v => (M.get ρ m₀ v).toScalar

/-- Indices. -/
def Machine.indices (M : Machine V) (vs : List Val) : List ℤ :=
  vs.map fun v => (M.get ρ m₀ v).toIndex

/-- Buffers. -/
def Machine.contents (M : Machine V) : Src → List ℤ → V
  | .memref b => M.mem b
  | .tensor v => (M.get ρ m₀ v).toTensor

/-- One operation. -/
def Machine.step (M : Machine V) (i : Instr C U V) : Machine V :=
  let get := M.get ρ m₀
  let push (v : Value V) : Machine V := { M with results := M.results ++ [v] }
  let write (b : ℕ) (t : List ℤ → V) : Machine V :=
    ⟨M.results ++ [.none], Function.update M.mem b t⟩
  match i with
  | .const c => push (.scalar (L.const c))
  | .un o a => push (.scalar (L.tgt.un o (get a).toScalar))
  | .bin o t a b => push (.scalar (L.tgt.bin o t (get a).toScalar (get b).toScalar))
  | .indexCast a => push (.index (L.index (get a).toScalar))
  | .load b is => push (.scalar (M.mem b (M.indices ρ m₀ is)))
  | .extract t is => push (.scalar ((get t).toTensor (M.indices ρ m₀ is)))
  | .store v b is => write b (Function.update (M.mem b) (M.indices ρ m₀ is) (get v).toScalar)
  | .insert v t is =>
    push (.tensor (Function.update (get t).toTensor (M.indices ρ m₀ is) (get v).toScalar))
  | .tile f srcs es => push (.tensor (f (srcs.map (M.contents ρ m₀)) (M.scalars ρ m₀ es)))
  | .tileStore f srcs es b => write b (f (srcs.map (M.contents ρ m₀)) (M.scalars ρ m₀ es))

/-- All of them, in order. -/
def run (is : List (Instr C U V)) : Machine V := is.foldl (Machine.step L ρ m₀) ⟨[], m₀⟩

end

/-! ## The generators -/

/-- A code generator: whether `BinaryOpCodegen` checks operands, and the buffers that are
tensors. -/
structure Codegen : Type where
  recheck : Bool
  isTensor : ℕ → Bool

/-- The state of a generator in a block. -/
structure Gen (C U V : Type) : Type where
  instrs : List (Instr C U V)
  /-- `prim_expr_map` -/
  primExprMap : Expr C U → Option Val
  /-- `mlir_value_map` -/
  mlirValueMap : Val → Option Val
  /-- the tensors of the buffers, in `var_map_` -/
  varMap : ℕ → Val

/-- The state at the start of a block. -/
def Gen.start : Gen C U V := ⟨[], fun _ => none, fun _ => none, .tensor⟩

namespace Gen

/-- `builder.create`. -/
def emit (g : Gen C U V) (i : Instr C U V) : Val × Gen C U V :=
  (.res g.instrs.length, { g with instrs := g.instrs ++ [i] })

/-- `CreateIndexCastOp`. -/
def createIndexCastOp (g : Gen C U V) (v : Val) : Val × Gen C U V :=
  match g.mlirValueMap v with
  | some w => (w, g)
  | none =>
    let (w, g) := g.emit (.indexCast v)
    (w, { g with mlirValueMap := Function.update g.mlirValueMap v (some w) })

/-- The first two operands of the operation that defines a value. -/
def definedBy (g : Gen C U V) (v lhs rhs : Val) : Bool :=
  match v with
  | .res n => match g.instrs[n]? with
    | some (.bin _ _ a b) => a = lhs && b = rhs
    | _ => false
  | _ => false

variable [DecidableEq C] [DecidableEq U]

/-- `UpdatePrimExprMap`. -/
def updatePrimExprMap (g : Gen C U V) (e : Expr C U) (v : Val) : Gen C U V :=
  { g with primExprMap := Function.update g.primExprMap e (some v) }

/-- A new operation that is remembered. -/
def emitFor (g : Gen C U V) (e : Expr C U) (i : Instr C U V) : Val × Gen C U V :=
  let (v, g) := g.emit i
  (v, g.updatePrimExprMap e v)

end Gen

section

variable [DecidableEq C] [DecidableEq U] (cfg : Codegen)

/-- `BinaryOpCodegen`. -/
def binaryOpCodegen (g : Gen C U V) (o : BinOp) (t : TypeClass) (a b : Expr C U) (lhs rhs : Val) :
    Val × Gen C U V :=
  match g.primExprMap (.bin o t a b) with
  | some cached =>
    if !cfg.recheck || g.definedBy cached lhs rhs then (cached, g)
    else g.emitFor (.bin o t a b) (.bin o t lhs rhs)
  | none => g.emitFor (.bin o t a b) (.bin o t lhs rhs)

mutual

/-- `MakeValue`. -/
def makeValue : Expr C U → Gen C U V → Val × Gen C U V
  | .imm c, g => match g.primExprMap (.imm c) with
    | some v => (v, g)
    | none => g.emitFor (.imm c) (.const c)
  | .var x, g => (.var x, g)
  | .un o a, g => match g.primExprMap (.un o a) with
    | some v => (v, g)
    | none =>
      let (x, g) := makeValue a g
      g.emitFor (.un o a) (.un o x)
  | .bin o t a b, g =>
    let (x, g) := makeValue a g
    let (y, g) := makeValue b g
    binaryOpCodegen cfg g o t a b x y
  | .load b is, g =>
    let (js, g) := makeIndices is g
    if cfg.isTensor b then g.emit (.extract (g.varMap b) js) else g.emit (.load b js)

/-- The indices of a load or a store. -/
def makeIndices : Exprs C U → Gen C U V → List Val × Gen C U V
  | .nil, g => ([], g)
  | .cons e es, g =>
    let (x, g) := makeValue e g
    let (i, g) := g.createIndexCastOp x
    let (is, g) := makeIndices es g
    (i :: is, g)

end

/-- The scalars of a tile operation. -/
def makeValues : List (Expr C U) → Gen C U V → List Val × Gen C U V
  | [], g => ([], g)
  | e :: es, g =>
    let (x, g) := makeValue cfg e g
    let (xs, g) := makeValues es g
    (x :: xs, g)

/-- A buffer as an operand. -/
def bufferSrc (g : Gen C U V) (b : ℕ) : Src :=
  if cfg.isTensor b then .tensor (g.varMap b) else .memref b

/-- A statement. A new tensor takes the place of the buffer's old one. -/
def lowerStmt : Stmt C U V → Gen C U V → Gen C U V
  | .store b is e, g =>
    let (v, g) := makeValue cfg e g
    let (js, g) := makeIndices cfg is g
    if cfg.isTensor b then
      let (t, g) := g.emit (.insert v (g.varMap b) js)
      { g with varMap := Function.update g.varMap b t }
    else (g.emit (.store v b js)).2
  | .eval e, g => (makeValue cfg e g).2
  | .tile dst srcs es f, g =>
    let (vs, g) := makeValues cfg es g
    let ops := srcs.map (bufferSrc cfg g)
    if cfg.isTensor dst then
      let (t, g) := g.emit (.tile f ops vs)
      { g with varMap := Function.update g.varMap dst t }
    else (g.emit (.tileStore f ops vs dst)).2

/-- A block. -/
def lower (prog : List (Stmt C U V)) (g : Gen C U V) : Gen C U V :=
  prog.foldl (fun g s => lowerStmt cfg s g) g

/-! ## The calls of `MakeValue` -/

mutual

/-- Every call of `MakeValue` that lowering an expression makes, with its result. -/
def calls : Expr C U → Gen C U V → List (Expr C U × Val)
  | .imm c, g => [(.imm c, (makeValue cfg (.imm c) g).1)]
  | .var x, _ => [(.var x, .var x)]
  | .un o a, g =>
    (match g.primExprMap (.un o a) with
      | some _ => []
      | none => calls a g) ++ [(.un o a, (makeValue cfg (.un o a) g).1)]
  | .bin o t a b, g =>
    calls a g ++ calls b (makeValue cfg a g).2 ++ [(.bin o t a b, (makeValue cfg (.bin o t a b) g).1)]
  | .load b is, g => callsOfIndices is g ++ [(.load b is, (makeValue cfg (.load b is) g).1)]

/-- The same for indices. -/
def callsOfIndices : Exprs C U → Gen C U V → List (Expr C U × Val)
  | .nil, _ => []
  | .cons e es, g =>
    calls e g ++
      callsOfIndices es ((makeValue cfg e g).2.createIndexCastOp (makeValue cfg e g).1).2

end

/-- The same for scalars. -/
def callsOfValues : List (Expr C U) → Gen C U V → List (Expr C U × Val)
  | [], _ => []
  | e :: es, g => calls cfg e g ++ callsOfValues es (makeValue cfg e g).2

/-- The same for a statement. -/
def callsOfStmt : Stmt C U V → Gen C U V → List (Expr C U × Val)
  | .store _ is e, g => calls cfg e g ++ callsOfIndices cfg is (makeValue cfg e g).2
  | .eval e, g => calls cfg e g
  | .tile _ _ es _, g => callsOfValues cfg es g

end

end TileLangNpuir.ScalarCache
