import Mathlib.Data.Int.Basic
import TileLangNpuir.Lib.Words

/-!
# The signature of a kernel, printed and read back

`AddFunctionForCoreType` gives the generated function a parameter for every parameter of
the kernel, between the ones the compiler inserts and the grid, and MLIR prints it.
`_parse_signature` reads the types for the launcher out of that text.
-/

namespace TileLangNpuir.Signature

/-- A text. -/
abbrev Text : Type := List Char

/-! ## The code generator -/

inductive TypeCode : Type where
  | int | uint | float | bfloat | handle
deriving DecidableEq

/-- `DataType`. -/
structure DataType : Type where
  code : TypeCode
  bits : ℕ
  lanes : ℕ
deriving DecidableEq

/-- The MLIR types of kernel parameters. -/
inductive MlirType : Type where
  | f16 | f32 | f64 | bf16 | i1 | i4 | i8 | i16 | i32 | i64
deriving DecidableEq

/-- The integers of `DTypetoMLIRType`, which have no sign in MLIR. -/
def intMlirType (bits lanes : ℕ) : Option MlirType :=
  match bits with
  | 1 => if lanes = 1 then some .i1 else none
  | 4 => if lanes = 1 then some .i4 else none
  | 8 => if lanes = 1 then some .i8 else none
  | 16 => if lanes = 1 then some .i16 else none
  | 32 => if lanes = 1 then some .i32 else none
  | 64 => some .i64
  | _ => none

/-- `DTypetoMLIRType`; `none` is a `LOG(FATAL)`, or no type at all. -/
def dtypeToMlirType (t : DataType) : Option MlirType :=
  match t.code with
  | .handle => none
  | .float =>
    match t.bits with
    | 16 => if t.lanes = 1 then some .f16 else none
    | 32 => some .f32
    | 64 => some .f64
    | _ => none
  | .bfloat => if t.bits = 16 ∧ t.lanes = 1 then some .bf16 else none
  | .int => intMlirType t.bits t.lanes
  | .uint => intMlirType t.bits t.lanes

/-- How MLIR prints a type. -/
def MlirType.text : MlirType → Text
  | .f16 => "f16".toList
  | .f32 => "f32".toList
  | .f64 => "f64".toList
  | .bf16 => "bf16".toList
  | .i1 => "i1".toList
  | .i4 => "i4".toList
  | .i8 => "i8".toList
  | .i16 => "i16".toList
  | .i32 => "i32".toList
  | .i64 => "i64".toList

/-- A parameter of the kernel: a handle with the data type of its buffer, or a scalar. -/
inductive Param : Type where
  | tensor (t : DataType)
  | scalar (t : DataType)
deriving DecidableEq

def Param.dtype : Param → DataType
  | .tensor t => t
  | .scalar t => t

def Param.isTensor : Param → Bool
  | .tensor _ => true
  | .scalar _ => false

/-- An argument of the function: a memref of unknown length or a value, and its attribute. -/
structure FuncArg : Type where
  isMemref : Bool
  type : MlirType
  attr : Text

/-- `hacc.arg_type` of an argument. -/
def argTypeAttr (kind : Text) : Text :=
  " \x7bhacc.arg_type = #hacc.arg_type<".toList ++ kind ++ ">\x7d".toList

/-- The arguments before those of the kernel; on A5 there is no address of the FFTS. -/
def compilerArgs (isA5 : Bool) : List FuncArg :=
  let locks : List FuncArg :=
    [⟨true, .i8, argTypeAttr "sync_block_lock".toList⟩, ⟨true, .i8, argTypeAttr "workspace".toList⟩]
  if isA5 then locks else ⟨false, .i64, argTypeAttr "ffts_base_address".toList⟩ :: locks

/-- The arguments of the kernel. -/
def kernelArgs (params : List Param) : Option (List FuncArg) :=
  params.mapM fun p => (dtypeToMlirType p.dtype).map fun t => ⟨p.isTensor, t, []⟩

/-- The six numbers of the grid. -/
def gridArgs : List FuncArg := List.replicate 6 ⟨false, .i32, []⟩

/-- `%argN: T`. -/
def printArg (a : FuncArg) (n : ℕ) : Text :=
  "%arg".toList ++ Nat.toDigits 10 n ++ ": ".toList ++
    (if a.isMemref then "memref<?x".toList ++ a.type.text ++ ">".toList else a.type.text) ++ a.attr

/-- The arguments, numbered and with commas in between. -/
def printArgs (args : List FuncArg) : Text :=
  (", ".toList).intercalate (args.zipIdx.map fun p => printArg p.1 p.2)

/-- The text of the function `AddFunctionForCoreType` creates; `rest` is what follows the
arguments. -/
def printFunc (isA5 : Bool) (name : Text) (params : List Param) (rest : Text) : Option Text :=
  (kernelArgs params).map fun args =>
    "func.func @".toList ++ name ++ "(".toList ++
      printArgs (compilerArgs isA5 ++ args ++ gridArgs) ++ ")".toList ++ rest

/-! ## The launcher -/

/-- `target_types`. -/
def targetTypes : List Text :=
  ["i1".toList, "i8".toList, "i16".toList, "i32".toList, "i64".toList, "u32".toList, "u64".toList,
    "fp16".toList, "bf16".toList, "fp32".toList, "f32".toList, "fp64".toList, "f16".toList]

def isSpace (c : Char) : Bool := c.isWhitespace

/-- `re.match(r"func\.func\s*@[^(]*\(([^)]*)\)", s)`, the group. -/
def matchSignature (s : Text) : Option Text :=
  if "func.func".toList.isPrefixOf s then
    match (s.drop 9).dropWhile isSpace with
    | '@' :: s =>
      match s.dropWhile (· != '(') with
      | _ :: s => if ')' ∈ s then some (s.takeWhile (· != ')')) else none
      | [] => none
    | _ => none
  else none

/-- `re.search` of the same. -/
def searchSignature : Text → Option Text
  | [] => none
  | c :: s =>
    match matchSignature (c :: s) with
    | some found => some found
    | none => searchSignature s

/-- `str.strip`. -/
def strip (s : Text) : Text := ((s.dropWhile isSpace).reverse.dropWhile isSpace).reverse

/-- The state of the segmentation loop. -/
structure Segments : Type where
  params : List Text
  current : Text
  brace : ℤ
  angle : ℤ

/-- One character of the segmentation loop. -/
def Segments.step (s : Segments) (c : Char) : Segments :=
  if c = ',' ∧ s.brace = 0 ∧ s.angle = 0 then
    { s with params := s.params ++ [strip s.current], current := [] }
  else
    { s with
      current := s.current ++ [c]
      brace := if c = '{' then s.brace + 1 else if c = '}' then s.brace - 1 else s.brace
      angle := if c = '<' then s.angle + 1 else if c = '>' then s.angle - 1 else s.angle }

/-- The parameters of a text. -/
def segment (paramsStr : Text) : List Text :=
  let s := paramsStr.foldl Segments.step ⟨[], [], 0, 0⟩
  if s.current = [] then s.params else s.params ++ [strip s.current]

/-- The type that is found in a parameter, when the set is gone through in the given order. -/
def findType (order : List Text) (param : Text) : Option Text :=
  order.findSome? fun t =>
    if searchWord ('x' :: t) param then some ('*' :: t)
    else if searchWord t param then some t
    else none

/-- `f16` and `f32` are called `fp16` and `fp32`. -/
def renameType (t : Text) : Text :=
  if t = "f16".toList then "fp16".toList
  else if t = "*f16".toList then "*fp16".toList
  else if t = "f32".toList then "fp32".toList
  else if t = "*f32".toList then "*fp32".toList
  else t

/-- `params[k:-6]`. -/
def kernelSlice (k : ℕ) (params : List Text) : List Text := (params.take (params.length - 6)).drop k

/-- `_parse_signature`: the dictionary, in the order of its keys. -/
def parseSignature (order : List Text) (isA5 : Bool) (content : Text) : List (ℕ × Text) :=
  match searchSignature content with
  | none => []
  | some paramsStr =>
    let compilerInsertedParams := if isA5 then 2 else 3
    let found := (kernelSlice compilerInsertedParams (segment paramsStr)).filterMap fun param =>
      (findType order param).map renameType
    found.zipIdx.map fun p => (p.2, p.1)

/-! ## What the launcher should see -/

/-- The launcher's name of an element type. -/
def MlirType.launcherText : MlirType → Text
  | .f16 => "fp16".toList
  | .f32 => "fp32".toList
  | .f64 => "fp64".toList
  | t => t.text

/-- The entry of a parameter: its element type, with a star for a tensor. -/
def Param.entry (p : Param) : Text :=
  let element := (dtypeToMlirType p.dtype).elim [] MlirType.launcherText
  if p.isTensor then '*' :: element else element

/-- One entry for each parameter of the kernel, in order. -/
def expectedSignature (params : List Param) : List (ℕ × Text) :=
  (params.map Param.entry).zipIdx.map fun p => (p.2, p.1)

end TileLangNpuir.Signature
