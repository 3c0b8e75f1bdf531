import TileLangNpuir.Codegen.Mlir
import TileLangNpuir.Lib.Layers

/-!
# `CodeGenTileLangNPUIRDEV`: statements

The statement visitors of the developer-mode generator
(`src/target/codegen_npuir_dev.cc`). Buffers are SSA tensors: an op that updates
a buffer binds it to a new value in `var_map_`, and `scf.for` / `scf.if` carry the
variables `LoopCarriedVarCollector` finds in their bodies.

A visit returns the code it emits, the variables it passed to `SetVarValue` (in
order), and the generator afterwards; a failed `ICHECK` is `none`. So is an op
with a tensor result whose destination is a memref: `mlir::verify` in `Finish`
rejects it.
-/

namespace TileLangNpuir.Codegen

/-- What the generator asks of an `mlir::Type`. -/
inductive MType : Type where
  | tensor | memref | scalar
  deriving DecidableEq

/-- An `mlir::Value`. -/
structure MValue : Type where
  /-- its identity -/
  id : ℕ
  /-- its type -/
  ty : MType
  deriving DecidableEq

/-- The generator state the statement visitors use. -/
structure CodeGen : Type where
  /-- `var_map_`, innermost layer first -/
  varMap : Layers Var MValue
  /-- the next SSA value -/
  next : ℕ
  /-- `current_coretype` -/
  coreType : CoreType

/-- What a visit produces. -/
structure Emitted (V : Type) : Type where
  /-- the code -/
  code : Mlir V
  /-- the variables passed to `SetVarValue` -/
  sets : List Var
  /-- the generator afterwards -/
  state : CodeGen

/-- A lowered scalar or operand list. -/
structure Lowered (V : Type) (α : Type) : Type where
  /-- the code -/
  code : Mlir V
  /-- the value(s) it leaves -/
  val : α
  /-- the generator afterwards -/
  state : CodeGen

/-- Consecutive new values of the given types. -/
def freshValues (n : ℕ) : List MType → List MValue
  | [] => []
  | t :: ts => ⟨n, t⟩ :: freshValues (n + 1) ts

namespace CodeGen

variable {V : Type}

/-- `GetVarValue`. -/
def getVarValue (g : CodeGen) (v : Var) : Option MValue := g.varMap.get? v

/-- `SetVarValue`. -/
def setVarValue (g : CodeGen) (v : Var) (x : MValue) : Option CodeGen :=
  (g.varMap.set v x).map fun m => { g with varMap := m }

/-- `SetVarValue` for each variable of a list. -/
def setVarValues (g : CodeGen) (vars : List Var) (xs : List MValue) : Option CodeGen :=
  (g.varMap.setAll (vars.zip xs)).map fun m => { g with varMap := m }

/-- `AddVarLayer`. -/
def addVarLayer (g : CodeGen) : CodeGen := { g with varMap := g.varMap.push }

/-- `DeleteVarLayer`. -/
def deleteVarLayer (g : CodeGen) : Option CodeGen :=
  g.varMap.pop.map fun m => { g with varMap := m }

/-- The variable is bound to a tensor. -/
def IsTensor (g : CodeGen) (v : Var) : Prop :=
  ∃ x, g.getVarValue v = some x ∧ x.ty = .tensor

/-! ## `LoopCarriedVarCollector` -/

/-- `CheckVar`. -/
def checkVar (g : CodeGen) (vars : List Var) (v : Var) : List Var :=
  if (g.getVarValue v).isSome ∧ v ∉ vars then vars ++ [v] else vars

/-- `CheckVar`, only when the variable is bound to a tensor. -/
def checkTensor (g : CodeGen) (vars : List Var) (v : Var) : List Var :=
  match g.getVarValue v with
  | some x => if x.ty = .tensor then g.checkVar vars v else vars
  | none => vars

/-- `LoopCarriedVarCollector` on a statement, after it has found `vars`. -/
def collect (g : CodeGen) : Stmt V → List Var → List Var
  | .seq s t, vars => g.collect t (g.collect s vars)
  | .forLoop _ _ _ body, vars => g.collect body vars
  | .ifThen _ thenCase, vars => g.collect thenCase vars
  | .ifThenElse _ thenCase elseCase, vars => g.collect elseCase (g.collect thenCase vars)
  | .allocate _ _ body, vars => g.collect body vars
  | .letStmt _ _ body, vars => g.collect body vars
  | .bufferStore buf _ _, vars => g.checkTensor vars buf
  | .evaluate .copy args, vars => (buffersAt args [1]).foldl g.checkTensor vars
  | .evaluate op args, vars => (buffersAt args op.collectedArgs).foldl g.checkVar vars

/-! ## Scalars and operands -/

/-- `MakeValue` of an opaque scalar expression. -/
def makeValue (g : CodeGen) (e : PrimExpr V) : Option (Lowered V ℕ) := do
  let xs ← e.vars.mapM g.getVarValue
  some ⟨.eval g.next e.eval (xs.map MValue.id), g.next, { g with next := g.next + 1 }⟩

/-- `MakeValue(a + b)`. -/
def makeSum (g : CodeGen) (a b : PrimExpr V) : Option (Lowered V ℕ) := do
  let x ← g.makeValue a
  let y ← x.state.makeValue b
  let n := y.state.next
  some ⟨.seq (.seq x.code y.code) (.addi n x.val y.val), n, { y.state with next := n + 1 }⟩

/-- `MakeValue` of each expression of a list. -/
def makeValues (g : CodeGen) : List (PrimExpr V) → Option (Lowered V (List ℕ))
  | [] => some ⟨.nil, [], g⟩
  | e :: es => do
    let x ← g.makeValue e
    let xs ← x.state.makeValues es
    some ⟨.seq x.code xs.code, x.val :: xs.val, xs.state⟩

/-- The operands of one call argument. -/
def makeArg (g : CodeGen) : Arg V → Option (Lowered V (List ℕ))
  | .region buf bounds => do
    let b ← g.getVarValue buf
    let xs ← g.makeValues bounds
    some ⟨xs.code, b.id :: xs.val, xs.state⟩
  | .scalar e => do
    let x ← g.makeValue e
    some ⟨x.code, [x.val], x.state⟩
  | .str _ => some ⟨.nil, [], g⟩

/-- The operands of a call. -/
def makeArgs (g : CodeGen) : List (Arg V) → Option (Lowered V (List ℕ))
  | [] => some ⟨.nil, [], g⟩
  | a :: as => do
    let x ← g.makeArg a
    let xs ← x.state.makeArgs as
    some ⟨.seq x.code xs.code, x.val ++ xs.val, xs.state⟩

/-! ## Tile calls -/

/-- Emit an op with one tensor result per variable of `dsts` and bind them. -/
def emitRebind (g : CodeGen) (op : TileOp) (operands : List ℕ) (dsts : List Var) :
    Option (Emitted V) := do
  let olds ← dsts.mapM g.getVarValue
  guard (olds.all fun x => x.ty = .tensor)
  let results := freshValues g.next (olds.map MValue.ty)
  let g' ← ({ g with next := g.next + dsts.length } : CodeGen).setVarValues dsts results
  some ⟨.tile (results.map MValue.id) op operands, dsts, g'⟩

/-- Emit an op that writes the memref bound to `dst`. -/
def emitInPlace (g : CodeGen) (op : TileOp) (operands : List ℕ) (dst : Var) :
    Option (Emitted V) := do
  let x ← g.getVarValue dst
  guard (x.ty = .memref)
  some ⟨.inPlace op x.id operands, [], g⟩

/-- `AscendCopyCodegen`: dispatch on the types of source and destination. -/
def emitCopy (g : CodeGen) (operands : List ℕ) (src dst : Var) : Option (Emitted V) := do
  let s ← g.getVarValue src
  let d ← g.getVarValue dst
  match s.ty, d.ty with
  | .memref, .tensor => g.emitRebind .copy operands [dst]
  | .tensor, .memref => g.emitInPlace .copy operands dst
  | .tensor, .tensor => g.emitRebind .copy operands [dst]
  | _, _ => none

/-- `VselectCodegen` returns early when the destination is no tensor. -/
def emitSelect (g : CodeGen) (operands : List ℕ) (dst : Var) : Option (Emitted V) := do
  let d ← g.getVarValue dst
  if d.ty = .tensor then g.emitRebind .select operands [dst] else some ⟨.nil, [], g⟩

/-- The op's own code generator, on lowered operands. -/
def emitCall (g : CodeGen) (op : TileOp) (args : List (Arg V)) (operands : List ℕ) :
    Option (Emitted V) :=
  match op with
  | .copy =>
    match buffersAt args [0, 1] with
    | [src, dst] => g.emitCopy operands src dst
    | _ => none
  | .select =>
    match buffersAt args [3] with
    | [dst] => g.emitSelect operands dst
    | _ => none
  | op =>
    match op.inPlaceArg? with
    | some p =>
      match buffersAt args [p] with
      | [dst] => g.emitInPlace op operands dst
      | _ => none
    | none => g.emitRebind op operands (buffersAt args (op.rebindArgs args.length))

/-- `VisitExpr_(const CallNode *)`: parse the regions, lower the operands, run
the op's code generator. -/
def visitCall (g : CodeGen) (op : TileOp) (args : List (Arg V)) : Option (Emitted V) := do
  guard ((op.regionArgs args.length).all fun i => (args[i]?.bind Arg.buffer?).isSome)
  let xs ← g.makeArgs args
  let r ← xs.state.emitCall op args xs.val
  some ⟨.seq xs.code r.code, r.sets, r.state⟩

/-! ## Statements -/

/-- What `scf.for` and `scf.if` are built from: the carried variables with their
current values, and the result values. -/
structure Frame : Type where
  /-- the carried variables -/
  carried : List Var
  /-- their values before the op -/
  inits : List MValue
  /-- the op's results -/
  results : List MValue

/-- Look up the carried variables and create the op's results. -/
def openFrame (g : CodeGen) (carried : List Var) : Option (Frame × CodeGen) := do
  let inits ← carried.mapM g.getVarValue
  some (⟨carried, inits, freshValues g.next (inits.map MValue.ty)⟩,
    { g with next := g.next + carried.length })

/-- `AddVarLayer`, then bind the carried variables in it. -/
def enterRegion (g : CodeGen) (carried : List Var) (xs : List MValue) : Option CodeGen :=
  g.addVarLayer.setVarValues carried xs

/-- The state in which a loop body is visited: a new layer with the induction
variable and the region `iter_args`. -/
def enterFor (g : CodeGen) (x : Var) (f : Frame) : Option (CodeGen × List MValue) := do
  let iterArgs := freshValues (g.next + 1) (f.inits.map MValue.ty)
  let g' : CodeGen := { g with next := g.next + 1 + f.carried.length }
  guard (g.getVarValue x = none)
  let g₁ ← g'.addVarLayer.setVarValue x ⟨g.next, .scalar⟩
  let g₂ ← g₁.setVarValues f.carried iterArgs
  some (g₂, iterArgs)

/-- `DeleteVarLayer`, then bind the carried variables to the results. -/
def leave (g : CodeGen) (f : Frame) : Option CodeGen := do
  let g₁ ← g.deleteVarLayer
  g₁.setVarValues f.carried f.results

/-- `VisitStmt`. -/
def visitStmt (g : CodeGen) : Stmt V → Option (Emitted V)
  | .seq s t => do
    let a ← g.visitStmt s
    let b ← a.state.visitStmt t
    some ⟨.seq a.code b.code, a.sets ++ b.sets, b.state⟩
  | .forLoop x min extent body => do
    let lo ← g.makeValue min
    let hi ← lo.state.makeSum extent min
    let (f, g₁) ← hi.state.openFrame (hi.state.collect body [])
    let (g₂, iterArgs) ← g₁.enterFor x f
    let b ← g₂.visitStmt body
    let yields ← f.carried.mapM b.state.getVarValue
    let g₃ ← b.state.leave f
    some ⟨.seq (.seq lo.code hi.code)
        (.forOp g₁.next lo.val hi.val (f.inits.map MValue.id) (iterArgs.map MValue.id)
          b.code (yields.map MValue.id) (f.results.map MValue.id)),
      x :: f.carried ++ b.sets ++ f.carried, g₃⟩
  | .ifThen cond thenCase => do
    let c ← g.makeValue cond
    let (f, g₁) ← c.state.openFrame (c.state.collect thenCase [])
    let g₂ ← g₁.enterRegion f.carried f.inits
    let t ← g₂.visitStmt thenCase
    let yields ← f.carried.mapM t.state.getVarValue
    let g₃ ← t.state.leave f
    some ⟨.seq c.code
        (.ifOp c.val t.code (yields.map MValue.id) .nil (f.inits.map MValue.id)
          (f.results.map MValue.id)),
      f.carried ++ t.sets ++ f.carried, g₃⟩
  | .ifThenElse cond thenCase elseCase => do
    let c ← g.makeValue cond
    let (f, g₁) ← c.state.openFrame (c.state.collect elseCase (c.state.collect thenCase []))
    let g₂ ← g₁.enterRegion f.carried f.inits
    let t ← g₂.visitStmt thenCase
    let thenYields ← f.carried.mapM t.state.getVarValue
    let g₃ ← t.state.deleteVarLayer
    let xs ← f.carried.mapM g₃.getVarValue
    let g₄ ← g₃.enterRegion f.carried xs
    let e ← g₄.visitStmt elseCase
    let elseYields ← f.carried.mapM e.state.getVarValue
    let g₅ ← e.state.leave f
    some ⟨.seq c.code
        (.ifOp c.val t.code (thenYields.map MValue.id) e.code (elseYields.map MValue.id)
          (f.results.map MValue.id)),
      f.carried ++ t.sets ++ f.carried ++ e.sets ++ f.carried, g₅⟩
  | .allocate buf scope body =>
    if scope.coreType? = none ∨ scope.coreType? = some g.coreType then do
      guard (g.getVarValue buf = none)
      let g' : CodeGen := { g with next := g.next + 1 }
      let g₁ ← g'.setVarValue buf ⟨g.next, .tensor⟩
      let b ← g₁.visitStmt body
      some ⟨.seq (.empty g.next buf) b.code, buf :: b.sets, b.state⟩
    else g.visitStmt body
  | .letStmt x value body => do
    guard (g.getVarValue x = none)
    let v ← g.makeValue value
    let g₁ ← v.state.setVarValue x ⟨v.val, .scalar⟩
    let b ← g₁.visitStmt body
    some ⟨.seq v.code b.code, x :: b.sets, b.state⟩
  | .bufferStore buf value indices => do
    let m ← g.getVarValue buf
    let v ← g.makeValue value
    let is ← v.state.makeValues indices
    match m.ty with
    | .memref => some ⟨.seq (.seq v.code is.code) (.store m.id v.val is.val), [], is.state⟩
    | .tensor => do
      let n := is.state.next
      let g' : CodeGen := { is.state with next := n + 1 }
      let g₁ ← g'.setVarValue buf ⟨n, .tensor⟩
      some ⟨.seq (.seq v.code is.code) (.insert n m.id v.val is.val), [buf], g₁⟩
    | .scalar => none
  | .evaluate op args => g.visitCall op args

end CodeGen

end TileLangNpuir.Codegen
