import Mathlib.Data.List.Basic

/-!
# TIR statements of the developer-mode code generator

The statements `CodeGenTileLangNPUIRDEV` visits and the tile ops its
`VisitExpr_(const CallNode *)` dispatches on. A tile call keeps its argument
list as the source has it: `tl.region` calls, scalar expressions and strings, by
position. Which positions an op's argument struct (`src/op/ascend.cc`) parses as
regions, and which of them it writes, are the tables at the end.

Scalar expressions are opaque here: an expression is the list of variables it
mentions together with its value in terms of theirs.
-/

namespace TileLangNpuir.Codegen

/-- The identity of a `tir::VarNode`. -/
abbrev Var : Type := ℕ

/-- A scalar `PrimExpr`: the variables it mentions and its value in terms of
the values of those. -/
structure PrimExpr (V : Type) : Type where
  /-- variables mentioned, in order of occurrence -/
  vars : List Var
  /-- the value, from the values of `vars` -/
  eval : List V → V

/-- The ops `VisitExpr_(const CallNode *)` lowers. -/
inductive TileOp : Type where
  | pipeBarrier | callExtern | setFlag | waitFlag
  | syncBlock | syncBlockSet | syncBlockWait
  | copy
  | add | sub | mul | div | max | min | or | and | xor | pow | shl | shr | cmp
  | exp | ln | relu | sqrt | rsqrt | abs | vrec | not
  | select
  | loadNd2nz | storeNz2nd | storeFixpipe
  | dot | bitcast
  | brc | cast | reduce | sigmoid | atomicAdd | cumsum | sort | gather | transpose
  | interleave | deinterleave | arange | concat | pad | flip
  | vcos | vsin | verf | vtanh
  | debugPrintVar | debugPrintBufferValue
  | reshape
  deriving DecidableEq

/-- An argument of a tile call. -/
inductive Arg (V : Type) : Type where
  /-- `tl.region(buf[mins], mask, extents)`; `bounds` lists mins and extents -/
  | region (buf : Var) (bounds : List (PrimExpr V))
  /-- a scalar operand -/
  | scalar (e : PrimExpr V)
  /-- a `StringImm` -/
  | str (s : String)

/-- The buffer of a region argument. -/
def Arg.buffer? {V : Type} : Arg V → Option Var
  | .region buf _ => some buf
  | _ => none

/-- The storage scopes `VisitStmt_(const AllocateNode *)` tells apart. -/
inductive StorageScope : Type where
  | shared | sharedCube | wmmaAccumulator | other
  deriving DecidableEq

/-- `NPU_CORETYPE`. -/
inductive CoreType : Type where
  | aic | aiv | mix
  deriving DecidableEq

/-- `scope_coretype_map` of `VisitStmt_(const AllocateNode *)`. -/
def StorageScope.coreType? : StorageScope → Option CoreType
  | .shared => some .aiv
  | .sharedCube => some .aic
  | .wmmaAccumulator => some .aic
  | .other => none

/-- The statements the generator visits. `SeqStmt` is binary; an `IfThenElse`
without `else_case` is `ifThen`. -/
inductive Stmt (V : Type) : Type where
  | seq (s t : Stmt V)
  | forLoop (x : Var) (min extent : PrimExpr V) (body : Stmt V)
  | ifThen (cond : PrimExpr V) (thenCase : Stmt V)
  | ifThenElse (cond : PrimExpr V) (thenCase elseCase : Stmt V)
  | allocate (buf : Var) (scope : StorageScope) (body : Stmt V)
  | letStmt (x : Var) (value : PrimExpr V) (body : Stmt V)
  | bufferStore (buf : Var) (value : PrimExpr V) (indices : List (PrimExpr V))
  | evaluate (op : TileOp) (args : List (Arg V))

namespace TileOp

/-- The argument positions the op's struct parses with `RegionOp`, in a call
with `n` arguments. A binary op takes an immediate or a variable as second
operand and `npuir_brc` as first, so those positions are absent. -/
def regionArgs (n : ℕ) : TileOp → List ℕ
  | add | sub | mul | div | max | min | or | and | xor | pow | shl | shr | cmp => [0, 2]
  | exp | ln | relu | sqrt | rsqrt | abs | vrec | not => [0, 1]
  | copy | cast | reduce | sigmoid | atomicAdd | cumsum | transpose | pad | flip
  | reshape | loadNd2nz | storeNz2nd | storeFixpipe => [0, 1]
  | dot | sort | gather => [0, 1, 2]
  | select => [0, 1, 2, 3]
  | brc => [1]
  | arange | bitcast | debugPrintBufferValue => [0]
  | interleave | concat => List.range' 1 (n - 1)
  | deinterleave => List.range' 2 (n - 2)
  | vcos | vsin | verf | vtanh => List.range' 0 n
  | pipeBarrier | callExtern | setFlag | waitFlag | syncBlock | syncBlockSet
  | syncBlockWait | debugPrintVar => []

/-- The argument positions whose buffer the op's code generator hands to
`SetVarValue`, in a call with `n` arguments. `tl.copy` rebinds its destination
only when it is a tensor and is treated on its own. -/
def rebindArgs (n : ℕ) : TileOp → List ℕ
  | add | sub | mul | div | max | min | or | and | xor | pow | shl | shr | cmp => [2]
  | exp | ln | relu | sqrt | rsqrt | abs | vrec | not => [1]
  | dot => [2]
  | select => [3]
  | brc | cast | reduce | sigmoid | cumsum | gather | transpose | pad | flip | reshape => [1]
  | interleave | concat => [1]
  | sort => [1, 2]
  | deinterleave => List.range' 3 (n - 3)
  | arange => [0]
  | vcos | vsin | verf | vtanh => [0]
  | copy | atomicAdd | loadNd2nz | storeNz2nd | storeFixpipe | bitcast
  | pipeBarrier | callExtern | setFlag | waitFlag | syncBlock | syncBlockSet
  | syncBlockWait | debugPrintVar | debugPrintBufferValue => []

/-- The argument position of the memref an op writes in place. -/
def inPlaceArg? : TileOp → Option ℕ
  | atomicAdd => some 0
  | loadNd2nz | storeNz2nd | storeFixpipe => some 1
  | _ => none

/-- The argument positions `LoopCarriedVarCollector::VisitExpr_` passes to
`CheckVar`. `tl.copy` again is separate: its destination is checked only when it
is bound to a tensor. -/
def collectedArgs : TileOp → List ℕ
  | dot => [0, 1, 2]
  | add | sub | mul | div | pow | max | min | and | shl | shr | cmp | xor | or => [0, 1, 2]
  | reduce | exp | ln | sqrt | rsqrt | vrec | not | abs | relu => [0, 1]
  | _ => []

end TileOp

/-- The buffers of the region arguments at the given positions, in order. -/
def buffersAt {V : Type} (args : List (Arg V)) (positions : List ℕ) : List Var :=
  positions.filterMap fun i => args[i]?.bind Arg.buffer?

end TileLangNpuir.Codegen
