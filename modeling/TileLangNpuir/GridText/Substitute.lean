import TileLangNpuir.Lib.Replace
import TileLangNpuir.Lib.Words
import Mathlib.Data.Int.Notation
import Mathlib.Data.List.Sort

/-!
# The launch grid

The extent of a launch is kept as a text (`compiler_npu._parse_grid`). `_calcu_grid` replaces
the names of the symbolic shape variables in it by their values, longest name first, and
evaluates what comes out as a Python expression (`tilelang/jit/jit_npu.py`).
-/

namespace TileLangNpuir.GridText

abbrev Text : Type := List Char

/-! ## Expressions -/

inductive Op : Type where
  | add | sub | mul | floorDiv
deriving DecidableEq

/-- An extent, as it is written. -/
inductive Expr : Type where
  | const (n : ℕ)
  | ident (name : Text)
  | neg (a : Expr)
  | bin (op : Op) (a b : Expr)
deriving DecidableEq

def Op.eval : Op → ℤ → ℤ → Option ℤ
  | .add, x, y => some (x + y)
  | .sub, x, y => some (x - y)
  | .mul, x, y => some (x * y)
  | .floorDiv, x, y => if y = 0 then none else some (x.fdiv y)

/-- The value under an assignment. There is none when an identifier has none, or when
something is divided by zero. -/
def Expr.eval (val : Text → Option ℤ) : Expr → Option ℤ
  | .const n => some n
  | .ident name => val name
  | .neg a => (a.eval val).map fun x => -x
  | .bin op a b => (a.eval val).bind fun x => (b.eval val).bind fun y => op.eval x y

def Expr.idents : Expr → List Text
  | .const _ => []
  | .ident name => [name]
  | .neg a => a.idents
  | .bin _ a b => a.idents ++ b.idents

/-! ## Pieces of a text -/

/-- A run of letters, digits and underscores, or a single other character. -/
inductive Piece : Type where
  | word (w : Text)
  | sym (c : Char)
deriving DecidableEq

def flush (w : Text) : List Piece := if w = [] then [] else [.word w]

/-- The pieces, when a word has begun. -/
def piecesFrom (w : Text) : Text → List Piece
  | [] => flush w
  | c :: s => if isWordChar c then piecesFrom (w ++ [c]) s else flush w ++ .sym c :: piecesFrom [] s

def pieces (s : Text) : List Piece := piecesFrom [] s

/-! ## Reading an expression

Sums of products of signed operands, from left to right. -/

/-- What waits for the rest of an operand between two parentheses: a sum, a product, and minus
signs. -/
structure Level : Type where
  sum : Option (Expr × Op)
  prod : Option (Expr × Op)
  signs : ℕ

/-- Before an operand, behind one, or behind the first character of `//`. -/
inductive Mode : Type where
  | operand
  | operator (x : Expr)
  | slash (x : Expr)

structure State : Type where
  outer : List Level
  level : Level
  mode : Mode

def Level.empty : Level := ⟨none, none, 0⟩

def combine : Option (Expr × Op) → Expr → Expr
  | none, x => x
  | some (a, op), x => .bin op a x

def negate : ℕ → Expr → Expr
  | 0, x => x
  | n + 1, x => negate n (.neg x)

/-- An operand is complete. -/
def State.operand (st : State) (x : Expr) : State :=
  ⟨st.outer, { st.level with signs := 0 }, .operator (negate st.level.signs x)⟩

/-- What is between the parentheses so far. -/
def Level.close (l : Level) (x : Expr) : Expr := combine l.sum (combine l.prod x)

def State.addOp (st : State) (x : Expr) (op : Op) : State :=
  ⟨st.outer, ⟨some (st.level.close x, op), none, 0⟩, .operand⟩

def State.mulOp (st : State) (x : Expr) (op : Op) : State :=
  ⟨st.outer, { st.level with prod := some (combine st.level.prod x, op) }, .operand⟩

def State.pop (st : State) (x : Expr) : Option State :=
  match st.outer with
  | [] => none
  | l :: outer => some (State.operand ⟨outer, l, .operand⟩ (st.level.close x))

/-- Before an operand. -/
def State.beforeOperand (st : State) (c : Char) : Option State :=
  if c = ' ' ∨ c = '+' then some st
  else if c = '-' then some { st with level := { st.level with signs := st.level.signs + 1 } }
  else if c = '(' then some ⟨st.level :: st.outer, .empty, .operand⟩
  else none

/-- Behind an operand. -/
def State.behindOperand (st : State) (x : Expr) (c : Char) : Option State :=
  if c = ' ' then some st
  else if c = '+' then some (st.addOp x .add)
  else if c = '-' then some (st.addOp x .sub)
  else if c = '*' then some (st.mulOp x .mul)
  else if c = '/' then some { st with mode := .slash x }
  else if c = ')' then st.pop x
  else none

def State.symbol (st : State) (c : Char) : Option State :=
  match st.mode with
  | .operand => st.beforeOperand c
  | .operator x => st.behindOperand x c
  | .slash x => if c = '/' then some (st.mulOp x .floorDiv) else none

/-- An identifier: it does not begin with a digit. -/
def isIdentifier (w : Text) : Bool :=
  w.all isWordChar && w.head?.any fun c => !c.isDigit

/-- A decimal number: it begins with a zero only if it is zero. Other literals are not read. -/
def isNumber (w : Text) : Bool :=
  w ≠ [] ∧ w.all Char.isDigit = true ∧ (w.head? = some '0' → w.all (· == '0') = true)

variable (reserved : Text → Bool)

/-- A number, or an identifier that is not reserved. -/
def atom (w : Text) : Option Expr :=
  if isNumber w then some (.const (Nat.ofDigitChars 10 w 0))
  else if isIdentifier w ∧ reserved w = false then some (.ident w)
  else none

def State.step (st : State) : Piece → Option State
  | .sym c => st.symbol c
  | .word w =>
    match st.mode with
    | .operand => (atom reserved w).map st.operand
    | _ => none

def State.run (st : State) : List Piece → Option State
  | [] => some st
  | p :: ps => (st.step reserved p).bind fun st' => st'.run ps

/-- The expression is complete. -/
def State.finish (st : State) : Option Expr :=
  match st.outer, st.mode with
  | [], .operator x => some (st.level.close x)
  | _, _ => none

/-- The expression a text is. -/
def read (s : Text) : Option Expr :=
  (State.run reserved ⟨[], .empty, .operand⟩ (pieces s)).bind State.finish

/-- Python's keywords. -/
def keywords : List Text :=
  ["False", "None", "True", "and", "as", "assert", "async", "await", "break", "class", "continue",
    "def", "del", "elif", "else", "except", "finally", "for", "from", "global", "if", "import", "in",
    "is", "lambda", "nonlocal", "not", "or", "pass", "raise", "return", "try", "while", "with",
    "yield"].map String.toList

def isKeyword (w : Text) : Bool := decide (w ∈ keywords)

/-- The expression Python takes a text for. -/
def readPython (s : Text) : Option Expr := read isKeyword s

/-- The expression a text stands for, with names of any kind. -/
def readExtent (s : Text) : Option Expr := read (fun _ => false) s

/-! ## Substitution -/

/-- `str` of an integer. -/
def intText : ℤ → Text
  | .ofNat n => Nat.toDigits 10 n
  | .negSucc n => '-' :: Nat.toDigits 10 (n + 1)

/-- `dynamic_val`: the symbolic shape variables and their values. -/
structure DynamicVal : Type where
  entries : List (Text × ℤ)
  nodup : (entries.map Prod.fst).Nodup
  identifiers : ∀ p ∈ entries, isIdentifier p.1 = true

def DynamicVal.get? (vals : DynamicVal) (name : Text) : Option ℤ :=
  (vals.entries.find? fun p => p.1 = name).map Prod.snd

/-- Texts are ordered by their code points. -/
def textLe : Text → Text → Bool
  | [], _ => true
  | _ :: _, [] => false
  | a :: s, b :: t => a.toNat < b.toNat || (a == b && textLe s t)

/-- `(-len(x), x)` in order. -/
def keyBefore (p q : Text × ℤ) : Prop :=
  q.1.length < p.1.length ∨ (p.1.length = q.1.length ∧ textLe p.1 q.1 = true)

instance : DecidableRel keyBefore := fun _ _ => inferInstanceAs (Decidable (_ ∨ _))

/-- `replace_by_longest_key`. -/
def replaceByLongestKey (s : Text) (vals : DynamicVal) : Text :=
  (vals.entries.insertionSort keyBefore).foldl (fun s p => replace p.1 (intText p.2) s) s

/-- The grid `_calcu_grid` computes from the text, or an error. Besides the variables, `eval`
only knows `math`, which is no number. -/
def calcuGrid (gridfunc : Text) (vals : DynamicVal) : Option ℤ :=
  (readPython (replaceByLongestKey gridfunc vals)).bind fun e => e.eval vals.get?

end TileLangNpuir.GridText
