import TileLangNpuir.LoopVectorize.Tile

/-!
# `LoopDecompose`

The first half of `NpuLoopVectorize`: the right-hand side of a store in a parallel
nest is taken apart into tile calls on single elements, with temporaries for
intermediate results. Loads that do not use every loop variable, loop variables
used as values and some scalars are materialized by statements hoisted before the
outermost parallel loop.

A failed attempt does not undo what it emitted, so every function returns the
emitter state together with its answer. `DepthGuard` restores the depth on every
return, so the depth is an argument here.
-/

namespace TileLangNpuir.LoopVectorize

variable {V : Type}

/-- `arith::Analyzer::Simplify`: it keeps the value of an index. -/
structure Simplifier : Type where
  simplify : Index → Index
  eval_simplify : ∀ ρ e, (simplify e).eval ρ = e.eval ρ

/-- A parallel loop with constant extent. -/
structure Loop : Type where
  var : Var
  min : Index
  extent : ℤ

/-- `BufferAccessInfo`. -/
structure Access : Type where
  buffer : Buffer
  indices : List Index

/-- The answers of `FindMappedLoopVar`: `-1`, `-2`, or a loop level. -/
inductive Mapped : Type where
  | invariant | ambiguous
  | loop (j : ℕ)
  deriving DecidableEq

/-- What decomposing an expression adds to. -/
structure Emitter (V : Type) : Type where
  /-- the statements of the loop body -/
  stmts : List (TileCall V)
  /-- `tmp_bufs` -/
  tmpBufs : List Access
  /-- `hoisted_stmts_` -/
  hoisted : List (TileCall V)
  /-- the next buffer identity -/
  next : ℕ
  /-- for specification: each access that reads a hoisted temporary, with the
  expression it stands for -/
  uses : List (Access × Expr V)

/-! ## Utility functions -/

/-- `IsFloat16Or32`. -/
def isFloat16Or32 (t : DType) : Bool := t.isFloat && (t.bits = 16 || t.bits = 32)

/-- `IsNpuirDivDtypeSupported`. -/
def isNpuirDivDtypeSupported (t : DType) : Bool := isFloat16Or32 t || (t.isInt && t.bits = 64)

/-- `CanLowerBinaryOpToNpuir`. -/
def canLowerBinaryOpToNpuir (op : BinaryOp) (t : DType) : Bool :=
  match op with
  | .div | .floorDiv | .floorMod => isNpuirDivDtypeSupported t
  | _ => true

/-- `PromoteFloatComputeDType`. -/
def promoteFloatComputeDType (current candidate : DType) : DType :=
  if candidate.isFloat && (!current.isFloat || current.bits < candidate.bits) then candidate
  else current

/-- `IsScalar`. -/
def Expr.isScalar : Expr V → Bool
  | .imm _ _ => true
  | _ => false

/-- The expression is a variable. -/
def Expr.isVar : Expr V → Bool
  | .var _ => true
  | _ => false

/-- `IsScalar` of a store index. -/
def Index.isConst : Index → Bool
  | .const _ => true
  | _ => false

/-- The index is a variable. -/
def Index.isVar : Index → Bool
  | .var _ => true
  | _ => false

section

variable (loops : List Loop)

/-- `ContainsAnyLoopVar`, on the variables of an expression. -/
def containsAnyLoopVar (xs : List Var) : Bool := loops.any fun l => l.var ∈ xs

/-- The levels of the loops whose variable occurs. -/
def levelsUsed (e : Index) : List ℕ :=
  (loops.zipIdx.filter fun p => p.1.var ∈ e.vars).map Prod.snd

/-- `FindMappedLoopVar`. -/
def findMappedLoopVar (e : Index) : Mapped :=
  match levelsUsed loops e with
  | [] => .invariant
  | [j] => .loop j
  | _ => .ambiguous

/-- `IsLoopInvariantScalarLike`. -/
def isLoopInvariantScalarLike : Expr V → Bool
  | .imm _ _ => true
  | .var x => !loops.any fun l => l.var = x
  | .load _ indices => !containsAnyLoopVar loops (indices.flatMap Index.vars)
  | _ => false

/-- `ValidBufferIndices`. -/
def validBufferIndices (indices : List Index) : Bool := indices.all fun e => e.dtype.isInt

/-- `IsUnitStrideLoopIndex`. -/
def isUnitStrideLoopIndex (x : Var) : Index → Bool
  | .var y => y = x
  | .cast _ a => isUnitStrideLoopIndex x a
  | .add a b =>
    (isUnitStrideLoopIndex x a && !containsAnyLoopVar loops b.vars) ||
      (!containsAnyLoopVar loops a.vars && isUnitStrideLoopIndex x b)
  | .sub a b => isUnitStrideLoopIndex x a && !containsAnyLoopVar loops b.vars
  | _ => false

variable (S : Simplifier)

/-- `IsSupportedVectorLoadIndex`, with the simplified index. -/
def isSupportedVectorLoadIndex (e : Index) : Option Index :=
  let e' := S.simplify e
  if containsAnyLoopVar loops e'.vars then
    match findMappedLoopVar loops e' with
    | .loop j =>
      match loops[j]? with
      | some l => if isUnitStrideLoopIndex loops l.var e' then some e' else none
      | none => none
    | _ => none
  else some e'

end

/-! ## Buffers and regions -/

/-- `CreateTempBuffer`: a buffer shaped like the one of `ref`. -/
def createTempBuffer (id : ℕ) (ref : Access) (t : DType) : Access :=
  ⟨⟨id, ref.buffer.shape, t⟩, ref.indices⟩

/-- `InferBinaryComputeDType`. -/
def inferBinaryComputeDType (op : BinaryOp) (result : DType) (a b : Option Access)
    (operands : List DType) : DType :=
  if op.isCmp then .bool
  else
    let resolved := (a.toList ++ b.toList).map fun r => r.buffer.dtype
    (resolved ++ operands).foldl promoteFloatComputeDType result

/-- `BuildRegionCall` with size one in every dimension. -/
def buildRegionCall (info : Access) : Region :=
  ⟨info.buffer, info.indices, info.indices.map fun _ => .const 1⟩

/-- `RegionND`. -/
def regionND (buf : Buffer) (offsets : List Index) (sizes : List ℤ) : Region :=
  ⟨buf, offsets, sizes.map .const⟩

/-- `MakeZeroOffsets`. -/
def makeZeroOffsets (n : ℕ) : List Index := List.replicate n (.const 0)

/-! ## Reshape and broadcast -/

section

variable (loops : List Loop)

/-- The level of the loop a variable belongs to. -/
def loopOf (x : Var) : Option ℕ := loops.findIdx? fun l => l.var = x

/-- The extent of a loop level. -/
def extentOf (j : ℕ) : ℤ := (loops[j]?.map Loop.extent).getD 1

/-- `index_to_loop`: the loop level each dimension of a load maps to. -/
def indexToLoop (e : Index) : Option ℕ :=
  match findMappedLoopVar loops e with
  | .loop j => some j
  | _ => none

/-- The loop levels a load uses. -/
def usedLevels (indices : List Index) : List ℕ :=
  (indices.filterMap (indexToLoop loops)).dedup

/-- `ReshapeBrcInfo::needed`, from `CheckNeedsReshapeBrc`. -/
def checkNeedsReshapeBrc (indices : List Index) (outDim : ℕ) : Bool :=
  let used := usedLevels loops indices
  !((used.length = loops.length || used.isEmpty) && outDim ≤ indices.length)

/-- `src_sizes`. -/
def srcSizes (indices : List Index) : List ℤ :=
  indices.map fun e => ((indexToLoop loops e).map (extentOf loops)).getD 1

/-- `src_offsets`: a dimension that maps to a loop is copied from offset zero. -/
def srcOffsets (indices : List Index) : List Index :=
  indices.map fun e => if (indexToLoop loops e).isSome then .const 0 else e

/-- The loop level of an output index that is a loop variable. -/
def outLevel : Index → Option ℕ
  | .var x => loopOf loops x
  | _ => none

/-- `aligned_brc_shape`. -/
def alignedBrcShape (outIndices : List Index) : List ℤ :=
  outIndices.map fun e => ((outLevel loops e).map (extentOf loops)).getD 1

/-- `aligned_view_shape`: as `aligned_brc_shape`, with one for the loops the load
does not use. -/
def alignedViewShape (indices outIndices : List Index) : List ℤ :=
  outIndices.map fun e =>
    match outLevel loops e with
    | some j => if j ∈ usedLevels loops indices then extentOf loops j else 1
    | none => 1

/-- `EmitReshapeAndBroadcast`: the hoisted copy, reshape and broadcast, and the
access that replaces the load. -/
def emitReshapeAndBroadcast (buf : Buffer) (indices : List Index) (out : Access) (next : ℕ) :
    List (TileCall V) × Access × ℕ :=
  let sizes := srcSizes loops indices
  let localBuf : Buffer := ⟨next, sizes.map .const, buf.dtype⟩
  let local₀ := regionND localBuf (makeZeroOffsets indices.length) sizes
  let viewShape := alignedViewShape loops indices out.indices
  let brcShape := alignedBrcShape loops out.indices
  let viewBuf : Buffer := ⟨next + 1, viewShape.map .const, buf.dtype⟩
  let view₀ := regionND viewBuf (makeZeroOffsets out.indices.length) viewShape
  let copy : TileCall V :=
    .copy (.region (regionND buf (srcOffsets loops indices) sizes)) local₀
  let reshape : TileCall V := .reshape local₀ view₀
  if brcShape = viewShape then ([copy, reshape], ⟨viewBuf, out.indices⟩, next + 2)
  else
    let brcBuf : Buffer := ⟨next + 2, brcShape.map .const, buf.dtype⟩
    let brc : TileCall V :=
      .brc (.region view₀) (regionND brcBuf (makeZeroOffsets out.indices.length) brcShape)
    ([copy, reshape, brc], ⟨brcBuf, out.indices⟩, next + 3)

/-- `GetAlignedLoopShape`. -/
def getAlignedLoopShape (outIndices : List Index) : List ℤ :=
  outIndices.map fun e => ((indexToLoop loops e).map (extentOf loops)).getD 1

/-- `EmitLoopVarArange` for the loop at level `j`. -/
def emitLoopVarArange (j : ℕ) (out : Access) (next : ℕ) : TileCall V × Access :=
  let shape := getAlignedLoopShape loops out.indices
  let buf : Buffer := ⟨next, shape.map .const, .int32⟩
  let strides := out.indices.map fun e => if indexToLoop loops e = some j then 1 else 0
  let offset := (loops[j]?.map Loop.min).getD (.const 0)
  (.arange (regionND buf (makeZeroOffsets out.indices.length) shape) strides offset,
    ⟨buf, out.indices⟩)

end

/-! ## Decomposition -/

namespace Emitter

/-- Append a statement of the loop body. -/
def stmt (st : Emitter V) (c : TileCall V) : Emitter V := { st with stmts := st.stmts ++ [c] }

/-- Register a temporary in `tmp_bufs`. -/
def pushTmp (st : Emitter V) (a : Access) : Emitter V :=
  { st with tmpBufs := st.tmpBufs ++ [a] }

/-- Append hoisted statements and record the access that reads them. -/
def hoist (st : Emitter V) (cs : List (TileCall V)) (a : Access) (e : Expr V) (next : ℕ) :
    Emitter V :=
  { st with hoisted := st.hoisted ++ cs, uses := st.uses ++ [(a, e)], next := next }

/-- A new temporary shaped like `ref`, registered in `tmp_bufs`. -/
def temp (st : Emitter V) (ref : Access) (t : DType) : Access × Emitter V :=
  let a := createTempBuffer st.next ref t
  (a, ({ st with next := st.next + 1 } : Emitter V).pushTmp a)

end Emitter

/-- Where a handler puts its result: `output_ref` at the top, else a new
temporary shaped like `ref`. -/
def resultAccess (depth : ℕ) (out ref : Access) (t : DType) (st : Emitter V) :
    Access × Emitter V :=
  if 1 < depth then st.temp ref t else (out, st)

section

variable (loops : List Loop) (S : Simplifier) (out : Access)

/-- `ResolveOperand`, given how the operand itself is decomposed. -/
def resolveWith (e : Expr V) (decomp : Emitter V → Bool × Emitter V) (st : Emitter V) :
    Option Access × Emitter V :=
  if isLoopInvariantScalarLike loops e then (none, st)
  else
    match e with
    | .var x =>
      match loopOf loops x with
      | some j =>
        let (c, a) := emitLoopVarArange loops j out st.next
        (some a, (st.hoist [c] a e (st.next + 1)).pushTmp a)
      | none => (none, st)
    | .load buf indices =>
      if validBufferIndices indices then
        match indices.mapM (isSupportedVectorLoadIndex loops S) with
        | some indices' =>
          if checkNeedsReshapeBrc loops indices' out.indices.length then
            let (cs, a, next) := emitReshapeAndBroadcast loops buf indices' out st.next
            (some a, (st.hoist cs a e next).pushTmp a)
          else (some ⟨buf, indices'⟩, st)
        | none => (none, st)
      else (none, st)
    | _ =>
      match decomp st with
      | (true, st') => (st'.tmpBufs.getLast?, st')
      | (false, st') => (none, st')

/-- A cast of a load of higher rank than the output stays scalar. -/
def rankReducingCast (op : UnaryOp) (a : Expr V) : Bool :=
  match op, a with
  | .cast _, .load _ indices => out.indices.length < indices.length
  | _, _ => false

/-- `HandleUnaryExpression`, at nesting `depth` (counting itself). -/
def handleUnary (depth : ℕ) (op : UnaryOp) (a : Expr V)
    (resolve : Emitter V → Option Access × Emitter V) (st : Emitter V) : Bool × Emitter V :=
  if rankReducingCast out op a then (false, st)
  else
    match resolve st with
    | (none, st) => (false, st)
    | (some src, st) =>
      let (dst, st) := resultAccess depth out src (Expr.unary op a).dtype st
      (true, st.stmt (.unary op (.region (buildRegionCall src)) (buildRegionCall dst)))

/-- The operators whose operands are swapped when the left one is scalar. -/
def swapsOperands (op : BinaryOp) : Bool :=
  match op with
  | .add | .mul | .min | .max => true
  | op => op.isCmp

/-- The operator after swapping the operands, as `HandleBinaryExpression` has it. -/
def mirrored : BinaryOp → BinaryOp
  | .lt => .gt
  | .le => .ge
  | op => op

/-- A scalar operand: an immediate or a variable is passed as it is, anything else
is broadcast to a temporary shaped like `ref`. -/
def scalarArg (e : Expr V) (ref : Access) (t : DType) (st : Emitter V) : Arg V × Emitter V :=
  if e.isScalar || e.isVar then (.scalar e, st)
  else
    let (tmp, st) := st.temp ref t
    (.region (buildRegionCall tmp), st.stmt (.brc (.scalar e) (buildRegionCall tmp)))

/-- The two operands of the emitted call and its operator. -/
def binaryArgs (op : BinaryOp) (a b : Expr V) (ra rb : Option Access) (t : DType)
    (st : Emitter V) : Option (BinaryOp × Arg V × Arg V × Access × Emitter V) :=
  match ra, rb with
  | none, none => none
  | some x, some y =>
    some (op, .region (buildRegionCall x), .region (buildRegionCall y), x, st)
  | none, some y =>
    if swapsOperands op then
      some (mirrored op, .region (buildRegionCall y), .scalar a, y, st)
    else
      let (arg, st) := scalarArg a y t st
      some (op, arg, .region (buildRegionCall y), y, st)
  | some x, none =>
    let (arg, st) := scalarArg b x t st
    some (op, .region (buildRegionCall x), arg, x, st)

/-- `HandleBinaryExpression`, at nesting `depth` (counting itself). -/
def handleBinary (depth : ℕ) (op : BinaryOp) (a b : Expr V)
    (resolveA resolveB : Emitter V → Option Access × Emitter V) (st : Emitter V) :
    Bool × Emitter V :=
  let result := (Expr.binary op a b).dtype
  if canLowerBinaryOpToNpuir op result then
    let (ra, st) := resolveA st
    let (rb, st) := resolveB st
    let op₁ := if op = .floorDiv then .div else op
    let t := inferBinaryComputeDType op₁ result ra rb [a.dtype, b.dtype]
    match binaryArgs op₁ a b ra rb t st with
    | none => (false, st)
    | some (op₂, argA, argB, ref, st) =>
      if op = .floorMod then
        let (quotient, st) := st.temp ref t
        let st := st.stmt (.binary .div argA argB (buildRegionCall quotient))
        let (product, st) := st.temp ref t
        let st := st.stmt
          (.binary .mul (.region (buildRegionCall quotient)) argB (buildRegionCall product))
        let (dst, st) := resultAccess depth out ref t st
        (true, st.stmt
          (.binary .sub argA (.region (buildRegionCall product)) (buildRegionCall dst)))
      else
        let (dst, st) := resultAccess depth out ref t st
        (true, st.stmt (.binary op₂ argA argB (buildRegionCall dst)))
  else (false, st)

/-- `ResolveTernaryOperand`. -/
def resolveTernaryOperand (e : Expr V) (resolve : Emitter V → Option Access × Emitter V)
    (t : DType) (st : Emitter V) : Option Access × Emitter V :=
  if isLoopInvariantScalarLike loops e then
    let (tmp, st) := st.temp out t
    (some tmp, st.stmt (.brc (.scalar e) (buildRegionCall tmp)))
  else
    match resolve st with
    | (some a, st) => (some a, st)
    | (none, st) =>
      if containsAnyLoopVar loops e.vars then (none, st)
      else
        let (tmp, st) := st.temp out t
        let zeros := makeZeroOffsets tmp.buffer.shape.length
        let a : Access := ⟨tmp.buffer, zeros⟩
        (some a,
          st.hoist [.brc (.scalar e) ⟨tmp.buffer, zeros, tmp.buffer.shape⟩] a e st.next)

/-- `HandleTernaryExpression`. The result always goes to `output_ref`. -/
def handleTernary (c t f : Expr V)
    (resolveC resolveT resolveF : Emitter V → Option Access × Emitter V) (st : Emitter V) :
    Bool × Emitter V :=
  let (rc, st) := resolveTernaryOperand loops out c resolveC .bool st
  let (rt, st) := resolveTernaryOperand loops out t resolveT out.buffer.dtype st
  let (rf, st) := resolveTernaryOperand loops out f resolveF out.buffer.dtype st
  match rc, rt, rf with
  | some c, some t, some f =>
    (true, st.stmt (.select (.region (buildRegionCall c)) (.region (buildRegionCall t))
      (.region (buildRegionCall f)) (buildRegionCall out)))
  | _, _, _ => (false, st)

/-- `DecomposeExpression`; `depth` counts the handlers around the expression. -/
def decompose : ℕ → Expr V → Emitter V → Bool × Emitter V
  | _, .load buf indices, st =>
    (true, st.stmt
      (.copy (.region (buildRegionCall ⟨buf, indices⟩)) (buildRegionCall out)))
  | _, .var x, st =>
    match resolveWith loops S out (.var x) (fun st => (false, st)) st with
    | (some src, st) =>
      (true, st.stmt (.copy (.region (buildRegionCall src)) (buildRegionCall out)))
    | (none, st) => (false, st)
  | _, .imm x t, st => (true, st.stmt (.brc (.scalar (.imm x t)) (buildRegionCall out)))
  | depth, .unary op a, st =>
    handleUnary out (depth + 1) op a (resolveWith loops S out a (decompose (depth + 1) a)) st
  | depth, .binary op a b, st =>
    handleBinary out (depth + 1) op a b (resolveWith loops S out a (decompose (depth + 1) a))
      (resolveWith loops S out b (decompose (depth + 1) b)) st
  | depth, .ifThenElse c t f, st =>
    handleTernary loops out c t f (resolveWith loops S out c (decompose (depth + 1) c))
      (resolveWith loops S out t (decompose (depth + 1) t))
      (resolveWith loops S out f (decompose (depth + 1) f)) st
  | _, .other _ _ _ _, st => (false, st)

/-- `ResolveOperand`. -/
def resolveOperand (depth : ℕ) (e : Expr V) (st : Emitter V) : Option Access × Emitter V :=
  resolveWith loops S out e (decompose loops S out depth e) st

end

/-! ## Statements -/

section

variable (S : Simplifier)

/-- One load of `CanDecomposeBufferAccess`. -/
def canDecomposeLoad (inner : Var) (buf : Buffer) (indices : List Index) : Bool :=
  match (indices.zipIdx.filter fun p => inner ∈ p.1.vars).map Prod.snd with
  | [] => true
  | [d] => (buf.shape.drop (d + 1)).all fun
    | .const 1 => true
    | _ => false
  | _ => false

/-- `CanDecomposeBufferAccess`. -/
def canDecomposeBufferAccess (loops : List Loop) (e : Expr V) : Bool :=
  match loops.getLast? with
  | some l => e.loads.all fun p => canDecomposeLoad l.var p.1 p.2
  | none => true

/-- The attempt of `VectorizeSingleStatement`: the statements of the new body and
the emitter afterwards; `none` is the fallback, which keeps what was hoisted. -/
def vectorizeSingleStatement (loops : List Loop) (buf : Buffer) (indices : List Index)
    (value : Expr V) (st : Emitter V) : Option (List (TileCall V)) × Emitter V :=
  if indices.all fun e => e.isVar || e.isConst then
    if canDecomposeBufferAccess loops value then
      match decompose loops S ⟨buf, indices⟩ 0 value { st with stmts := [], tmpBufs := [] } with
      | (true, st') => (some st'.stmts, st')
      | (false, st') => (none, st')
    else (none, st)
  else (none, st)

/-- A store, as `body.as<BufferStoreNode>()` sees it. -/
def Stmt.asStore : Stmt V → Option (Buffer × List Index × Expr V)
  | .store buf indices value => some (buf, indices, value)
  | _ => none

/-- `SeqStmt::Flatten` of tile calls followed by a statement. -/
def Stmt.prepend (cs : List (TileCall V)) (s : Stmt V) : Stmt V :=
  cs.foldr (fun c s => .seq (.eval c) s) s

/-- The extent of a loop that the pass takes: a parallel one with constant extent. -/
def parallelExtent : ForKind → Index → Option ℤ
  | .parallel, .const n => some n
  | _, _ => none

/-- `LoopDecompose::VisitStmt_`, below the parallel loops `loops`. What is hoisted
goes before the outermost of them. -/
def visitStmt : List Loop → Stmt V → Emitter V → Stmt V × Emitter V
  | loops, .seq s t, st =>
    let (s', st) := visitStmt loops s st
    let (t', st) := visitStmt loops t st
    (.seq s' t', st)
  | loops, .forLoop kind x min extent body, st =>
    match parallelExtent kind extent with
    | some n =>
      let loops' := loops ++ [⟨x, min, n⟩]
      let (body', st) :=
        match body.asStore with
        | some (buf, indices, value) =>
          match vectorizeSingleStatement S loops' buf indices value st with
          | (some calls, st) => (Stmt.prepend calls .nop, st)
          | (none, st) => (body, st)
        | none => visitStmt loops' body st
      let result := .forLoop kind x min extent body'
      if loops.isEmpty then (Stmt.prepend st.hoisted result, { st with hoisted := [] })
      else (result, st)
    | none =>
      let (body', st) := visitStmt loops body st
      (.forLoop kind x min extent body', st)
  | loops, .ifThenElse cond thenCase elseCase, st =>
    let (thenCase', st) := visitStmt loops thenCase st
    let (elseCase', st) := visitStmt loops elseCase st
    (.ifThenElse cond thenCase' elseCase', st)
  | loops, .letStmt x value body, st =>
    let (body', st) := visitStmt loops body st
    (.letStmt x value body', st)
  | _, .store buf indices value, st => (.store buf indices value, st)
  | _, .eval call, st => (.eval call, st)
  | _, .nop, st => (.nop, st)

end

end TileLangNpuir.LoopVectorize
