import TileLangNpuir.Lib.Affine
import Mathlib.Logic.Function.Basic

/-!
# Shape inference

`InputShapeInference` (`roller/shape_inference/tir.py`) for blocks with one output buffer and affine
loads, and one target: the regions that blocks read are written in the axes of the target, and their
bounds give the extents of each buffer. Buffers and variables are numbered.
-/

namespace TileLangNpuir.Carver.ShapeInference

abbrev Var := ℕ

abbrev Name := ℕ

/-- An index expression. -/
abbrev PrimExpr := Affine Var

/-- The indices of a load, without those that are zero. -/
abbrev Region := List PrimExpr

/-- A reduction axis; `name` is the name of its variable. -/
structure IterVar : Type where
  var : Var
  name : ℕ
  min : ℤ
  extent : ℕ
  deriving DecidableEq

/-- `Statement`, with the loads of its block in the order in which they are visited and the indices
at which the output buffer is written. The input buffers are the keys of `dependent_region`. -/
structure Statement : Type where
  depName : Name
  spatialAxis : List Var
  reduceAxis : List IterVar
  inputBuffers : List Name
  loads : List (Name × List PrimExpr)
  writes : List PrimExpr
  nodup : inputBuffers.Nodup

/-- What may be raised. -/
inductive InferError : Type where
  | keyError
  | indexError
  | typeError
  | tvmError

/-- The parts of `arith` that are used. Bounds are exact. `detectIterMap` has no result when the
indices are no iterator map; else it gives `inverse_affine_iter_map`. -/
structure Analyzer : Type where
  simplify : PrimExpr → PrimExpr
  constIntBound : Intervals Var → PrimExpr → ℤ × ℤ
  detectIterMap : List Var → Region → Option (Region → Region)
  eval_simplify : ∀ ρ e, (simplify e).eval ρ = e.eval ρ
  isLeast : ∀ env : Intervals Var, env.Nonempty → ∀ e,
    IsLeast (Affine.Values env e) (constIntBound env e).1
  isGreatest : ∀ env : Intervals Var, env.Nonempty → ∀ e,
    IsGreatest (Affine.Values env e) (constIntBound env e).2

/-- The regions of each buffer, as far as it has any. A region may be `None`. -/
abbrev Mapping := Name → Option (List (Option Region))

/-! ## Regions -/

/-- `region_is_same`, which zips. -/
def regionIsSame (a b : Region) : Bool := (a.zip b).all fun (x, y) => x = y

/-- `region_is_same` with an element of a list. `None` cannot be zipped. -/
def elementIsSame (a : Region) : Option Region → Except InferError Bool
  | some x => .ok (regionIsSame a x)
  | none => .error .typeError

/-- `region_exist_in_list`. -/
def regionExistInList (a : Option Region) (list : List (Option Region)) : Except InferError Bool :=
  match a with
  | none => if list = [] then .ok false else .error .typeError
  | some a => do
    let sames ← list.mapM (elementIsSame a)
    return sames.any id

/-- The index of a load; zeros are left out. -/
def dropZeros (indices : List PrimExpr) : Region := indices.filter fun e => e ≠ .const 0

/-- `_extract_dependent_region`: the entry of one of the input buffers. -/
def Statement.dependentRegion (dep : Statement) (name : Name) : List Region :=
  (dep.loads.filter fun load => load.1 = name).foldl (fun regions load =>
    let index := dropZeros load.2
    if regions.any (regionIsSame index) then regions else regions ++ [index]) []

/-- `make_reverse`. -/
def Statement.makeReverse (An : Analyzer) (dep : Statement) (inputName : Name)
    (inputIter : Option Region) : Except InferError (Option Region) :=
  if dep.reduceAxis ≠ [] then .ok none
  else
    match dep.dependentRegion inputName with
    | [indices] =>
      match An.detectIterMap dep.spatialAxis indices with
      | none => .ok none
      | some inverse =>
        match inputIter with
        | none => .error .tvmError
        | some inputIter => .ok (some (inverse inputIter))
    | _ => .ok none

/-! ## Dependencies -/

/-- `_find_path_recursive`, the loop over the next nodes of `current`. They are the blocks that read
it, which come after it; `visited` comes back with the path. -/
def findPathNext (target : Name) :
    List Statement → (current : Name) → (visited : List Name) → List Name × Option (List Name)
  | [], _, visited => (visited, none)
  | dep :: deps, current, visited =>
    if current ∈ dep.inputBuffers then
      let r :=
        if dep.depName = target then (visited, some [dep.depName])
        else if dep.depName ∈ visited then (visited, none)
        else
          match findPathNext target deps dep.depName (dep.depName :: visited) with
          | (visited, some path) => (visited, some (dep.depName :: path))
          | (visited, none) => (visited, none)
      match r with
      | (visited, some path) => (visited, some path)
      | (visited, none) => findPathNext target deps current visited
    else findPathNext target deps current visited

/-- `find_path_from_source`. -/
def findPathFromSource (deps : List Statement) (startName targetName : Name) : List Name :=
  if startName = targetName then [startName]
  else
    match findPathNext targetName deps startName [startName] with
    | (_, some path) => startName :: path
    | (_, none) => []

/-! ## Regions in the axes of the target -/

/-- The first loop, for one input of a block: a block that reads a mapped buffer is mapped back. -/
def reverseInput (An : Analyzer) (target : Name) (dep : Statement) (mapping : Mapping)
    (name : Name) : Except InferError Mapping :=
  match mapping name with
  | none => .ok mapping
  | some [] => .error .indexError
  | some (indices :: _) => do
    let outputIndices ← dep.makeReverse An name indices
    if dep.depName = target then return mapping
    match mapping dep.depName with
    | none => return Function.update mapping dep.depName (some [outputIndices])
    | some list =>
      if ← regionExistInList outputIndices list then return mapping
      return Function.update mapping dep.depName (some (list ++ [outputIndices]))

/-- A region of an input in terms of what the output is indexed with. -/
def substRegion (An : Analyzer) (axVars : List Var) (indices region : Region) : Region :=
  region.map fun e => An.simplify (e.subst fun v =>
    ((axVars.zip indices).lookup v).getD (.var v))

/-- A region is added to a buffer, unless it is there. -/
def addRegion (mapping : Mapping) (name : Name) (region : Region) : Except InferError Mapping := do
  let regions := (mapping name).getD []
  if ← regionExistInList (some region) regions then
    return Function.update mapping name (some regions)
  return Function.update mapping name (some (regions ++ [some region]))

/-- The second loop, for one input of a block. -/
def propagateInput (An : Analyzer) (target : Name) (dep : Statement)
    (indicesList : List (Option Region)) (mapping : Mapping) (name : Name) :
    Except InferError Mapping :=
  if name = target then .ok mapping
  else
    indicesList.foldlM (fun mapping indices =>
      (dep.dependentRegion name).foldlM (fun mapping region =>
        match indices with
        | none => .error .typeError
        | some indices => addRegion mapping name (substRegion An dep.spatialAxis indices region))
        mapping)
      (Function.update mapping name (some ((mapping name).getD [])))

/-- The second loop, for one block. -/
def propagateBlock (An : Analyzer) (target : Name) (dep : Statement) (mapping : Mapping) :
    Except InferError Mapping :=
  match mapping dep.depName with
  | none => .error .keyError
  | some indicesList =>
    dep.inputBuffers.foldlM (propagateInput An target dep indicesList) mapping

/-- The second loop. It takes the blocks from the last on. -/
def propagateBlocks (An : Analyzer) (target : Name) :
    List Statement → Mapping → Except InferError Mapping
  | [], mapping => .ok mapping
  | dep :: deps, mapping => do
    propagateBlock An target dep (← propagateBlocks An target deps mapping)

/-- `construct_dependency_target` for one target, with its axes. -/
def constructDependencyTarget (An : Analyzer) (deps : List Statement) (target : Name) :
    Except InferError (List Var × Mapping) :=
  match deps.find? fun dep => dep.depName = target with
  | none => .error .keyError
  | some dep => do
    let vars := dep.spatialAxis
    let start : Mapping := Function.update (fun _ => none) target (some [some (vars.map .var)])
    let mapping ← deps.foldlM (fun mapping dep =>
      dep.inputBuffers.foldlM (reverseInput An target dep) mapping) start
    return (vars, ← propagateBlocks An target deps mapping)

/-! ## Extents -/

/-- The values of a reduction axis in one step; the step is given by name. -/
def IterVar.bound (ax : IterVar) (rstep : ℕ → Option ℕ) : ℤ × ℤ :=
  match rstep ax.name with
  | some r => (ax.min, ax.min + Min.min (ax.extent : ℤ) r - 1)
  | none => (ax.min, ax.min + ax.extent - 1)

/-- What the analyzer knows about a variable: those that are not updated have the range of their
type. -/
def bounds (deps : List Statement) (vars : List Var) (tile : List ℕ) (rstep : ℕ → Option ℕ) :
    Intervals Var :=
  (deps.flatMap (·.reduceAxis)).foldl (fun env ax => Function.update env ax.var (ax.bound rstep))
    ((vars.zip tile).foldl (fun env (v, val) => Function.update env v (0, (val : ℤ) - 1))
      fun _ => (-2 ^ 31, 2 ^ 31 - 1))

/-- `_merge_two_bounds`. -/
def mergeTwoBounds (x y : ℤ × ℤ) : ℤ × ℤ := (min x.1 y.1, max x.2 y.2)

/-- The loop over the regions of a buffer. -/
def mergeRegions (An : Analyzer) (env : Intervals Var) (regions : List (Option Region)) :
    Except InferError (Option (List (ℤ × ℤ))) :=
  regions.foldlM (fun result region =>
    match region with
    | none => .error .typeError
    | some region =>
      let bound := region.map (An.constIntBound env)
      match result with
      | some result => .ok (some (List.zipWith mergeTwoBounds result bound))
      | none => .ok (some bound)) none

/-- The loop over the intermediate nodes of a path: the regions become those of a node that has one
region of the same length. The second component names the last such node. -/
def replaceRegions (mapping : Mapping) :
    List Name → List (Option Region) × Option Name →
      Except InferError (List (Option Region) × Option Name)
  | [], r => .ok r
  | node :: nodes, (regions, bind) =>
    match mapping node with
    | none => .error .keyError
    | some iters =>
      if iters.length ≠ regions.length ∨ iters.length ≠ 1 then
        replaceRegions mapping nodes (regions, bind)
      else
        match iters, regions with
        | [some iter], [some region] =>
          if iter.length ≠ region.length then .ok (regions, bind)
          else replaceRegions mapping nodes (iters, some node)
        | _, _ => .error .typeError

/-- The regions that a buffer gets its extents from. -/
def finalRegions (deps : List Statement) (target : Name) (mapping : Mapping) (name : Name)
    (regions : List (Option Region)) : Except InferError (List (Option Region) × Option Name) :=
  let path := findPathFromSource deps name target
  if 2 < path.length then replaceRegions mapping path.tail.dropLast (regions, none)
  else .ok (regions, none)

/-- The extents of one buffer, if it has regions, and whether its regions were replaced. -/
def inferName (An : Analyzer) (deps : List Statement) (target : Name) (env : Intervals Var)
    (mapping : Mapping) (name : Name) (regions : List (Option Region)) :
    Except InferError (Option (List ℤ) × Bool) := do
  let (regions, bind) ← finalRegions deps target mapping name regions
  let result ← mergeRegions An env regions
  return (result.map fun bounds => bounds.map fun c => c.2 - c.1 + 1, bind.isSome)

/-- The loop over the buffers; a buffer that is not mapped has no extents. -/
def inferBuffer (An : Analyzer) (deps : List Statement) (target : Name) (env : Intervals Var)
    (mapping : Mapping) (name : Name) : Except InferError (Name × Option (List ℤ) × Bool) :=
  match mapping name with
  | none => .ok (name, none, false)
  | some regions => do return (name, ← inferName An deps target env mapping name regions)

/-- The buffers of the blocks. -/
def bufferNames (deps : List Statement) : List Name :=
  (deps.flatMap fun dep => dep.inputBuffers ++ [dep.depName]).dedup

/-- `infer`: the extents of the buffers and `intermediate_bind`. -/
def infer (An : Analyzer) (deps : List Statement) (target : Name) (tile : List ℕ)
    (rstep : ℕ → Option ℕ) (targets : Option (List Name)) :
    Except InferError (List (Name × List ℤ) × List Name) := do
  let (vars, mapping) ← constructDependencyTarget An deps target
  let env := bounds deps vars tile rstep
  let names := (bufferNames deps).filter fun name => targets.all (name ∈ ·)
  let results ← names.mapM (inferBuffer An deps target env mapping)
  return (results.filterMap fun (name, extents, _) => extents.map fun e => (name, e),
    (results.filter fun (_, _, bound) => bound).map (·.1))

end TileLangNpuir.Carver.ShapeInference
