import TileLangNpuir.Lib.CountedLoop
import TileLangNpuir.LoopVectorize.Expr

/-!
# The SIMT indirect-load rewrite

`NpuSimtIndirectLoad` (`src/transform/npu_simt_indirect_load.cc`): a parallel loop that
gathers one element per lane becomes one `npuir_indirect_load`, whose last argument is
the number of lanes that are loaded.
-/

namespace TileLangNpuir.SimtLoad

open LoopVectorize (DType Var)

/-- The storage scopes the pass tells apart. -/
inductive Scope : Type where
  | global
  | shared
  | sharedDyn
  | other
deriving DecidableEq

/-- A dimension of a buffer. -/
inductive Dim : Type where
  | const (n : ℤ)
  | var (x : Var)
  | app (f : ℕ) (a b : Dim)
deriving DecidableEq

/-- A `tir::Buffer`. -/
structure Buffer : Type where
  id : ℕ
  dtype : DType
  scope : Scope
  shape : List Dim
deriving DecidableEq

mutual

/-- A `PrimExpr`. `app` stands for every form the pass does not look into. -/
inductive Expr : Type where
  | var (x : Var)
  | imm (t : DType) (n : ℤ)
  | add (a b : Expr)
  | sub (a b : Expr)
  | app (t : DType) (f : ℕ) (args : Exprs)
  | load (b : Buffer) (indices : Exprs)

/-- An `Array<PrimExpr>`. -/
inductive Exprs : Type where
  | nil
  | cons (e : Expr) (es : Exprs)

end

deriving instance DecidableEq for Expr, Exprs

/-- `dtype()`. -/
def Expr.dtype : Expr → DType
  | .var x => x.dtype
  | .imm t _ => t
  | .add a _ => a.dtype
  | .sub a _ => a.dtype
  | .app t _ _ => t
  | .load b _ => b.dtype

def Exprs.length : Exprs → ℕ
  | .nil => 0
  | .cons _ es => es.length + 1

def Dim.toExpr : Dim → Expr
  | .const n => .imm .int32 n
  | .var x => .var x
  | .app f a b => .app .int32 f (.cons a.toExpr (.cons b.toExpr .nil))

/-- A condition; only `LT` is looked into. -/
inductive Cond : Type where
  | lt (a b : Expr)
  | other (e : Expr)
deriving DecidableEq

inductive ForKind : Type where
  | serial
  | parallel
deriving DecidableEq

/-- A `tl.region`. -/
structure Region : Type where
  buffer : Buffer
  offsets : Exprs
  extents : Exprs

/-- The arguments of `tl.npuir_indirect_load`. -/
structure IndirectLoad : Type where
  src : Region
  idx : Region
  dst : Region
  validExtent : Expr

inductive Stmt : Type where
  | store (b : Buffer) (indices : Exprs) (value : Expr)
  | forLoop (x : Var) (min extent : Expr) (kind : ForKind) (body : Stmt)
  | ifThen (c : Cond) (s : Stmt)
  | ifThenElse (c : Cond) (s t : Stmt)
  | seq (s t : Stmt)
  | evaluate (call : IndirectLoad)

/-! ## The pass -/

/-- `MatchLaneIndex`: the base of an index that advances with the lane. -/
def matchLaneIndex (e : Expr) (x : Var) : Option Expr :=
  if e = .var x then some (.imm x.dtype 0)
  else
    match e with
    | .add a b => if a = .var x then some b else if b = .var x then some a else none
    | _ => none

/-- `MatchTailMask`: the number of lanes a mask lets through. -/
def matchTailMask (c : Cond) (x : Var) : Option Expr :=
  match c with
  | .lt a n =>
    if a = .var x then some n
    else
      match a with
      | .add a b =>
        if a = .var x then some (.sub n b) else if b = .var x then some (.sub n a) else none
      | _ => none
  | .other _ => none

inductive IndirectLoadKind : Type where
  | rank1
  /-- the row both loads share, and the base of the lane -/
  | lutRow2D (row idxLaneBase : Expr)

structure IndirectLoadPattern : Type where
  srcBuffer : Buffer
  idxBuffer : Buffer
  dstBuffer : Buffer
  kind : IndirectLoadKind

/-- `MatchStoreBody`. -/
def matchStoreBody (s : Stmt) (x : Var) : Option IndirectLoadPattern :=
  match s with
  | .store dst (.cons lane .nil) (.load src indices) =>
    if lane = .var x then
      match indices with
      | .cons (.load idx (.cons i .nil)) .nil =>
        if i = .var x then some ⟨src, idx, dst, .rank1⟩ else none
      | .cons srcRow (.cons (.load idx (.cons idxRow (.cons i .nil))) .nil) =>
        if srcRow = idxRow then
          (matchLaneIndex i x).map fun base => ⟨src, idx, dst, .lutRow2D srcRow base⟩
        else none
      | _ => none
    else none
  | _ => none

/-- `IsSharedScope`. -/
def Buffer.isSharedScope (b : Buffer) : Bool := b.scope = .shared || b.scope = .sharedDyn

/-- `CanRewriteBoundary`. -/
def canRewriteBoundary (min extent validExtent : Expr) (p : IndirectLoadPattern) : Bool :=
  (match min, extent with
    | .imm _ lo, .imm _ n => decide (0 < n) && decide (lo = 0)
    | _, _ => false) &&
  (validExtent.dtype.code = .int || validExtent.dtype.code = .uint) &&
  (match p.kind with
    | .rank1 =>
      p.srcBuffer.scope = .global && p.idxBuffer.isSharedScope && p.dstBuffer.isSharedScope
    | .lutRow2D _ _ =>
      (p.srcBuffer.scope = .global || p.srcBuffer.isSharedScope) &&
        (p.idxBuffer.scope = .global || p.idxBuffer.isSharedScope) && p.dstBuffer.isSharedScope) &&
  decide (p.srcBuffer.dtype = ⟨.float, 32⟩) && decide (p.idxBuffer.dtype = .int32) &&
  decide (p.dstBuffer.dtype = p.srcBuffer.dtype)

/-- `MakeRegion`. -/
def makeRegion (b : Buffer) (offset extent : Expr) : Region :=
  ⟨b, .cons offset .nil, .cons extent .nil⟩

/-- `MakeRegion2D`. -/
def makeRegion2D (b : Buffer) (offset0 offset1 extent0 extent1 : Expr) : Region :=
  ⟨b, .cons offset0 (.cons offset1 .nil), .cons extent0 (.cons extent1 .nil)⟩

/-- `BuildIndirectLoad`. -/
def buildIndirectLoad (x : Var) (block validExtent : Expr) (p : IndirectLoadPattern) :
    IndirectLoad :=
  let zero := Expr.imm x.dtype 0
  let one := Expr.imm .int32 1
  match p.kind with
  | .rank1 =>
    ⟨makeRegion p.srcBuffer zero one, makeRegion p.idxBuffer zero block,
      makeRegion p.dstBuffer zero block, validExtent⟩
  | .lutRow2D row base =>
    ⟨makeRegion2D p.srcBuffer row zero one ((p.srcBuffer.shape.getD 1 (.const 0)).toExpr),
      makeRegion2D p.idxBuffer row base one block, makeRegion p.dstBuffer zero block, validExtent⟩

/-- The store of a loop body, and the number of lanes it is run for. -/
def splitGuard (x : Var) (extent : Expr) : Stmt → Option (Expr × Stmt)
  | .ifThenElse _ _ _ => none
  | .ifThen c s => (matchTailMask c x).map fun valid => (valid, s)
  | s => some (extent, s)

/-- `TryRewrite`. -/
def tryRewrite (x : Var) (min extent : Expr) (body : Stmt) : Option IndirectLoad := do
  let (valid, s) ← splitGuard x extent body
  let p ← matchStoreBody s x
  if canRewriteBoundary min extent valid p then some (buildIndirectLoad x extent valid p) else none

/-- `NpuSimtIndirectLoadRewriter::VisitStmt`. -/
def visitStmt : Stmt → Stmt
  | .forLoop x min extent .parallel body =>
    match tryRewrite x min extent body with
    | some call => .evaluate call
    | none => .forLoop x min extent .parallel (visitStmt body)
  | .forLoop x min extent .serial body => .forLoop x min extent .serial (visitStmt body)
  | .ifThen c s => .ifThen c (visitStmt s)
  | .ifThenElse c s t => .ifThenElse c (visitStmt s) (visitStmt t)
  | .seq s t => .seq (visitStmt s) (visitStmt t)
  | s => s

/-! ## Meaning -/

/-- Values of buffer elements, with the integers among them. -/
structure Alg (V : Type) : Type where
  int : V → ℤ
  imm : ℤ → V
  int_imm : ∀ n, int (imm n) = n
  app : ℕ → List V → V

/-- Contents of the buffers. -/
abbrev Mem (V : Type) : Type := Buffer → List ℤ → V

abbrev Env : Type := Var → ℤ

variable {V : Type} (A : Alg V)

mutual

def Expr.eval (env : Env) (m : Mem V) : Expr → V
  | .var x => A.imm (env x)
  | .imm _ n => A.imm n
  | .add a b => A.imm (A.int (a.eval env m) + A.int (b.eval env m))
  | .sub a b => A.imm (A.int (a.eval env m) - A.int (b.eval env m))
  | .app _ f args => A.app f (args.eval env m)
  | .load b indices => m b ((indices.eval env m).map A.int)

def Exprs.eval (env : Env) (m : Mem V) : Exprs → List V
  | .nil => []
  | .cons e es => e.eval env m :: es.eval env m

end

/-- The value of an index. -/
def Expr.toInt (e : Expr) (env : Env) (m : Mem V) : ℤ := A.int (e.eval A env m)

/-- The values of indices. -/
def Exprs.toInts (es : Exprs) (env : Env) (m : Mem V) : List ℤ := (es.eval A env m).map A.int

def Cond.Holds (c : Cond) (env : Env) (m : Mem V) : Prop :=
  match c with
  | .lt a b => a.toInt A env m < b.toInt A env m
  | .other e => e.toInt A env m ≠ 0

instance (c : Cond) (env : Env) (m : Mem V) : Decidable (c.Holds A env m) := by
  unfold Cond.Holds
  cases c <;> infer_instance

/-- The contents with one element replaced. -/
def Mem.set (m : Mem V) (b : Buffer) (i : List ℤ) (v : V) : Mem V :=
  Function.update m b (Function.update (m b) i v)

/-- Add to the last index. -/
def addLast : List ℤ → ℤ → List ℤ
  | [], _ => []
  | [i], k => [i + k]
  | i :: is, k => i :: addLast is k

/-- The `k`-th element of a region. -/
def Region.at (r : Region) (env : Env) (m : Mem V) (k : ℤ) : List ℤ :=
  addLast (r.offsets.toInts A env m) k

/-- The element of the source the `k`-th index selects. -/
def IndirectLoad.selected (call : IndirectLoad) (env : Env) (m : Mem V) (k : ℤ) : V :=
  m call.src.buffer
    (call.src.at A env m (A.int (m call.idx.buffer (call.idx.at A env m k))))

/-- The extent of the destination. -/
def IndirectLoad.block (call : IndirectLoad) (env : Env) (m : Mem V) : ℤ :=
  match call.dst.extents with
  | .cons e _ => e.toInt A env m
  | .nil => 0

/-- `npuir_indirect_load`: the lanes below the valid extent are loaded, all at once, the
others are kept. -/
def IndirectLoad.exec (call : IndirectLoad) (env : Env) (m : Mem V) : Mem V :=
  let lanes := (min (call.validExtent.toInt A env m) (call.block A env m)).toNat
  countLoop (fun k m' =>
    m'.set call.dst.buffer (call.dst.at A env m k) (call.selected A env m k)) lanes 0 m

/-- Running a statement; parallel loops run their iterations in order. -/
def Stmt.run : Stmt → Env → Mem V → Mem V
  | .store b indices value, env, m => m.set b (indices.toInts A env m) (value.eval A env m)
  | .forLoop x lo extent _ body, env, m =>
    let first := lo.toInt A env m
    countLoop (fun k m' => body.run (Function.update env x k) m') (extent.toInt A env m).toNat first m
  | .ifThen c s, env, m => if c.Holds A env m then s.run env m else m
  | .ifThenElse c s t, env, m => if c.Holds A env m then s.run env m else t.run env m
  | .seq s t, env, m => t.run env (s.run env m)
  | .evaluate call, env, m => call.exec A env m

/-! ## Variables and buffers of an expression -/

mutual

def Expr.vars : Expr → List Var
  | .var x => [x]
  | .imm _ _ => []
  | .add a b => a.vars ++ b.vars
  | .sub a b => a.vars ++ b.vars
  | .app _ _ args => args.vars
  | .load _ indices => indices.vars

def Exprs.vars : Exprs → List Var
  | .nil => []
  | .cons e es => e.vars ++ es.vars

end

mutual

def Expr.reads : Expr → List Buffer
  | .var _ => []
  | .imm _ _ => []
  | .add a b => a.reads ++ b.reads
  | .sub a b => a.reads ++ b.reads
  | .app _ _ args => args.reads
  | .load b indices => b :: indices.reads

def Exprs.reads : Exprs → List Buffer
  | .nil => []
  | .cons e es => e.reads ++ es.reads

end

mutual

/-- The accesses of an expression: the buffer, and how many indices it is given. -/
def Expr.accesses : Expr → List (Buffer × ℕ)
  | .var _ => []
  | .imm _ _ => []
  | .add a b => a.accesses ++ b.accesses
  | .sub a b => a.accesses ++ b.accesses
  | .app _ _ args => args.accesses
  | .load b indices => (b, indices.length) :: indices.accesses

def Exprs.accesses : Exprs → List (Buffer × ℕ)
  | .nil => []
  | .cons e es => e.accesses ++ es.accesses

end

def Cond.accesses : Cond → List (Buffer × ℕ)
  | .lt a b => a.accesses ++ b.accesses
  | .other e => e.accesses

def Stmt.accesses : Stmt → List (Buffer × ℕ)
  | .store b indices value => (b, indices.length) :: (indices.accesses ++ value.accesses)
  | .forLoop _ lo extent _ body => lo.accesses ++ extent.accesses ++ body.accesses
  | .ifThen c s => c.accesses ++ s.accesses
  | .ifThenElse c s t => c.accesses ++ s.accesses ++ t.accesses
  | .seq s t => s.accesses ++ t.accesses
  | .evaluate _ => []

/-- What TIR asks of the body of a loop over `x`: a buffer is accessed with as many indices
as it has dimensions, and was declared outside the loop. -/
structure Stmt.WellFormed (x : Var) (body : Stmt) : Prop where
  rank : ∀ a ∈ body.accesses, a.2 = a.1.shape.length
  outside : ∀ a ∈ body.accesses, ∀ d ∈ a.1.shape, x ∉ d.toExpr.vars

def Region.vars (r : Region) : List Var := r.offsets.vars ++ r.extents.vars

/-- The variables of the emitted call. -/
def IndirectLoad.vars (call : IndirectLoad) : List Var :=
  call.src.vars ++ call.idx.vars ++ call.dst.vars ++ call.validExtent.vars

end TileLangNpuir.SimtLoad
