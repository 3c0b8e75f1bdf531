import Mathlib.Data.List.Count
import Mathlib.Data.Int.Basic

/-!
# `PlanAndUpdateBufferAllocationLocation`

Where buffers are allocated (`src/transform/plan_update_buffer_allocation_location.cc`).
Each managed buffer is planned for the lowest common ancestor of its accesses, a loop
or a block; `BufferAllocationLocator` then walks the body with a handful of counters
and one array of buffers waiting for a block, and moves the accumulators of dot calls
without initialization outwards.
-/

namespace TileLangNpuir.AllocPlan

variable {B : Type} [DecidableEq B]

/-- The argument `initC` of a dot call. -/
structure InitC : Type where
  /-- it is the constant `True` -/
  unconditional : Bool
  /-- its printed form contains `True` -/
  printsTrue : Bool
  prints : unconditional = true → printsTrue = true
  deriving DecidableEq

/-- `initC=True`. -/
def InitC.always : InitC := ⟨true, true, fun _ => rfl⟩

/-- `initC=False`, or a condition such as `k == 0`. -/
def InitC.cond : InitC := ⟨false, false, nofun⟩

/-- Statements, as far as the pass looks at them. Only loops and blocks are scopes;
`seq` stands for every other statement around two others. -/
inductive Stmt (B : Type) : Type where
  | seq (s t : Stmt B)
  | forLoop (body : Stmt B)
  | block (allocBuffers : List B) (body : Stmt B)
  /-- a load, a store or a region -/
  | access (b : B)
  /-- `tl.npuir_dot(a, b, c, initC)` -/
  | dot (a b c : B) (init : InitC)
  deriving DecidableEq

/-- The parameters and the body of a function. -/
structure PrimFunc (B : Type) : Type where
  bufferMap : List B
  body : Stmt B

namespace Stmt

/-- The accesses of a statement, in order. -/
def accesses : Stmt B → List B
  | seq s t => s.accesses ++ t.accesses
  | forLoop body => body.accesses
  | block _ body => body.accesses
  | access b => [b]
  | dot a b c _ => [a, b, c]

/-- `CollectManagedAllocations`. -/
def managed : Stmt B → List B
  | seq s t => s.managed ++ t.managed
  | forLoop body => body.managed
  | block bufs body => bufs ++ body.managed
  | access _ => []
  | dot _ _ _ _ => []

/-- A buffer the recorder has not seen. -/
def record (buf : B) (recorder : List B) : List B :=
  if buf ∈ recorder then recorder else recorder ++ [buf]

/-- `BufferAllocateOrderCollector`. -/
def collect : Stmt B → List B → List B
  | seq s t, recorder => t.collect (s.collect recorder)
  | forLoop body, recorder => body.collect recorder
  | block bufs body, recorder => body.collect (recorder ++ bufs)
  | access b, recorder => record b recorder
  | dot a b c _, recorder => record c (record b (record a recorder))

/-- A loop or block of the statement, with no other around it, has all `total`
accesses of the buffer. -/
def held (b : B) (total : ℕ) : Stmt B → Bool
  | seq s t => s.held b total || t.held b total
  | forLoop body => body.accesses.count b = total
  | block _ body => body.accesses.count b = total
  | access _ => false
  | dot _ _ _ _ => false

end Stmt

/-- `GemmBufferInfo` of an accumulator. -/
structure GemmBufferInfo : Type where
  withoutInit : Bool
  gemmDepth : ℤ
  deriving DecidableEq

/-- `AnalyzeGemmCalls`: what the last dot call on the buffer says. -/
def Stmt.gemmInfo (buf : B) : Stmt B → ℤ → Option GemmBufferInfo → Option GemmBufferInfo
  | seq s t, depth, info => t.gemmInfo buf depth (s.gemmInfo buf depth info)
  | forLoop body, depth, info => body.gemmInfo buf (depth + 1) info
  | block _ body, depth, info => body.gemmInfo buf depth info
  | access _, _, info => info
  | dot _ _ c init, depth, info =>
    if c = buf then some ⟨!init.printsTrue, depth - 1⟩ else info

namespace PrimFunc

variable (f : PrimFunc B)

/-- The number of accesses of a buffer. -/
def total (b : B) : ℕ := f.body.accesses.count b

/-- The recorder, parameters first. -/
def order : List B := f.body.collect f.bufferMap

/-- `DetectBufferAccessLCA`: the loop or block with this body is the lowest one with
all accesses of the buffer. -/
def isLca (b : B) (body : Stmt B) : Bool :=
  0 < f.total b && body.accesses.count b = f.total b && !body.held b (f.total b)

/-- `alloc_buffers_` at a loop or block. -/
def buffersAt (body : Stmt B) : List B :=
  f.order.filter fun b => b ∉ f.bufferMap && b ∈ f.body.managed && f.isLca b body

/-- `buffer_gemm_info_`. -/
def gemmBufferInfo (b : B) : Option GemmBufferInfo := f.body.gemmInfo b 0 none

/-- The buffer is moved out of a loop visited at this depth. -/
def extracted (depth : ℤ) (b : B) : Bool :=
  match f.gemmBufferInfo b with
  | some info => info.withoutInit && depth ≠ info.gemmDepth - 1
  | none => false

end PrimFunc

/-- The members of `BufferAllocationLocator` that change during the walk. -/
structure Locator (B : Type) : Type where
  allocBuffers : List B
  currentForDepth : ℤ
  forDepth : ℤ
  mergeDepth : ℤ
  outerBuffers : List B
  multiForLoop : Bool
  needExtract : Bool

/-- The locator before the walk. -/
def Locator.init : Locator B := ⟨[], 0, 0, 0, [], false, false⟩

/-- One buffer planned for a loop: kept for a block in the loop, or moved out. -/
def placeBuffer (f : PrimFunc B) (r : List B × Locator B) (buf : B) : List B × Locator B :=
  let (kept, st) := r
  if f.extracted st.currentForDepth buf then
    (kept, { st with
      needExtract := true
      outerBuffers := st.outerBuffers ++ [buf]
      allocBuffers := if st.multiForLoop then st.allocBuffers else st.allocBuffers ++ [buf] })
  else
    (kept ++ [buf],
      -- an accumulator that stays is not recorded here
      if ¬ ((f.gemmBufferInfo buf).any (·.withoutInit)) ∧
          st.currentForDepth = st.forDepth - 2 - st.mergeDepth ∧ st.multiForLoop then
        { st with outerBuffers := st.outerBuffers ++ [buf] }
      else st)

/-- The end of a visited loop: the buffers it keeps get a block, or not. -/
def rewriteBody (kept : List B) (body : Stmt B) (st : Locator B) : Stmt B × Locator B :=
  if st.needExtract then
    let (body, st) :=
      if kept ≠ [] ∧ st.currentForDepth = st.forDepth - 1 - st.mergeDepth ∧ st.forDepth ≠ 1 then
        (.block kept body, st)
      else if st.outerBuffers ≠ [] ∧ st.currentForDepth = st.forDepth - 2 - st.mergeDepth ∧
          st.multiForLoop then
        (.block st.outerBuffers body, { st with multiForLoop := true })
      else if kept ≠ [] ∧ st.currentForDepth = 0 ∧ ¬ st.multiForLoop then
        (.block kept body, st)
      else (body, st)
    (body, if st.multiForLoop then { st with allocBuffers := [] } else st)
  else if kept ≠ [] then (.block kept body, st)
  else (body, st)

/-- `BufferAllocationLocator::VisitStmt_`. -/
def visitStmt (f : PrimFunc B) : Stmt B → Locator B → Stmt B × Locator B
  | .seq s t, st =>
    let (s', st) := visitStmt f s st
    let (t', st) := visitStmt f t st
    (.seq s' t', st)
  | .forLoop body, st =>
    let st := { st with forDepth := st.forDepth + 1 }
    let bufs := f.buffersAt body
    if bufs = [] then
      let (body', st) := visitStmt f body { st with mergeDepth := st.mergeDepth + 1 }
      (.forLoop body', st)
    else
      let (body', st) := visitStmt f body { st with currentForDepth := st.currentForDepth + 1 }
      let (kept, st) :=
        bufs.foldl (placeBuffer f) ([], { st with currentForDepth := st.currentForDepth - 1 })
      let (body', st) := rewriteBody kept body' st
      (.forLoop body', st)
  | .block _ body, st =>
    let st := { st with allocBuffers := st.allocBuffers ++ f.buffersAt body }
    let (body', st) := visitStmt f body st
    (.block st.allocBuffers body', { st with allocBuffers := [] })
  | .access b, st => (.access b, st)
  | .dot a b c init, st => (.dot a b c init, st)

/-- `PlanAndUpdateBufferAllocationLocation`, the new body. -/
def planAndUpdateBufferAllocationLocation (f : PrimFunc B) : Stmt B :=
  (visitStmt f f.body .init).1

end TileLangNpuir.AllocPlan
