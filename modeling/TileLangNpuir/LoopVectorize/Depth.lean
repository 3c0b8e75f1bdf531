import TileLangNpuir.LoopVectorize.Decompose

/-!
# The depth counter

`LoopDecompose` keeps its nesting depth in a member that every handler raises for its own
duration (`DepthGuard`). Here the counter is part of the state. Whatever a handler does and
wherever it gives up, the counter is back when it returns, so that the depth can be an
argument as well (`decomposeCounting_eq`).
-/

namespace TileLangNpuir.LoopVectorize

variable {V : Type}

/-- `depth`, and what decomposing adds to. -/
abbrev Counting (V : Type) : Type := ℕ × Emitter V

/-- `DepthGuard`: both `commit` and the destructor restore the depth. -/
def depthGuard {ρ : Type} (body : Counting V → ρ × Counting V) (s : Counting V) :
    ρ × Counting V :=
  ((body (s.1 + 1, s.2)).1, s.1, (body (s.1 + 1, s.2)).2.2)

/-- A part that does not look at the counter. -/
def uncounted {ρ : Type} (part : Emitter V → ρ × Emitter V) (s : Counting V) : ρ × Counting V :=
  ((part s.2).1, s.1, (part s.2).2)

section

variable (loops : List Loop) (S : Simplifier) (out : Access)

/-- `ResolveOperand`. -/
def resolveCounting (e : Expr V) (decomp : Counting V → Bool × Counting V) (s : Counting V) :
    Option Access × Counting V :=
  if isLoopInvariantScalarLike loops e then (none, s)
  else
    match e with
    | .var x => uncounted (resolveWith loops S out (.var x) fun st => (false, st)) s
    | .load buf indices => uncounted (resolveWith loops S out (.load buf indices) fun st => (false, st)) s
    | _ =>
      match decomp s with
      | (true, s') => (s'.2.tmpBufs.getLast?, s')
      | (false, s') => (none, s')

/-- `HandleUnaryExpression`. -/
def handleUnaryCounting (op : UnaryOp) (a : Expr V)
    (resolve : Counting V → Option Access × Counting V) : Counting V → Bool × Counting V :=
  depthGuard fun s =>
    if rankReducingCast out op a then (false, s)
    else
      match resolve s with
      | (none, s) => (false, s)
      | (some src, s) => uncounted (handleUnary out s.1 op a fun st => (some src, st)) s

/-- `HandleBinaryExpression`. -/
def handleBinaryCounting (op : BinaryOp) (a b : Expr V)
    (resolveA resolveB : Counting V → Option Access × Counting V) :
    Counting V → Bool × Counting V :=
  depthGuard fun s =>
    if canLowerBinaryOpToNpuir op (Expr.binary op a b).dtype then
      let (ra, s) := resolveA s
      let (rb, s) := resolveB s
      uncounted (handleBinary out s.1 op a b (fun st => (ra, st)) fun st => (rb, st)) s
    else (false, s)

/-- `ResolveTernaryOperand`. -/
def resolveTernaryCounting (e : Expr V) (resolve : Counting V → Option Access × Counting V)
    (t : DType) (s : Counting V) : Option Access × Counting V :=
  if isLoopInvariantScalarLike loops e then
    uncounted (resolveTernaryOperand loops out e (fun st => (none, st)) t) s
  else
    let (r, s) := resolve s
    uncounted (resolveTernaryOperand loops out e (fun st => (r, st)) t) s

/-- `HandleTernaryExpression`. -/
def handleTernaryCounting (c t f : Expr V)
    (resolveC resolveT resolveF : Counting V → Option Access × Counting V) :
    Counting V → Bool × Counting V :=
  depthGuard fun s =>
    let (rc, s) := resolveTernaryCounting loops out c resolveC .bool s
    let (rt, s) := resolveTernaryCounting loops out t resolveT out.buffer.dtype s
    let (rf, s) := resolveTernaryCounting loops out f resolveF out.buffer.dtype s
    match rc, rt, rf with
    | some c, some t, some f =>
      (true, s.1, s.2.stmt (.select (.region (buildRegionCall c)) (.region (buildRegionCall t))
        (.region (buildRegionCall f)) (buildRegionCall out)))
    | _, _, _ => (false, s)

/-- `DecomposeExpression`. -/
def decomposeCounting : Expr V → Counting V → Bool × Counting V
  | .load buf indices => depthGuard fun s => uncounted (decompose loops S out s.1 (.load buf indices)) s
  | .var x => depthGuard fun s => uncounted (decompose loops S out s.1 (.var x)) s
  | .imm x t => depthGuard fun s => uncounted (decompose loops S out s.1 (.imm x t)) s
  | .unary op a => handleUnaryCounting out op a (resolveCounting loops S out a (decomposeCounting a))
  | .binary op a b =>
    handleBinaryCounting out op a b (resolveCounting loops S out a (decomposeCounting a))
      (resolveCounting loops S out b (decomposeCounting b))
  | .ifThenElse c t f =>
    handleTernaryCounting loops out c t f (resolveCounting loops S out c (decomposeCounting c))
      (resolveCounting loops S out t (decomposeCounting t))
      (resolveCounting loops S out f (decomposeCounting f))
  | .other _ _ _ _ => fun s => (false, s)

end

/-- `VectorizeSingleStatement`. -/
def vectorizeCounting (S : Simplifier) (loops : List Loop) (buf : Buffer) (indices : List Index)
    (value : Expr V) (s : Counting V) : Option (List (TileCall V)) × Counting V :=
  if indices.all fun e => e.isVar || e.isConst then
    if canDecomposeBufferAccess loops value then
      match decomposeCounting loops S ⟨buf, indices⟩ value
        (s.1, { s.2 with stmts := [], tmpBufs := [] }) with
      | (true, s') => (some s'.2.stmts, s')
      | (false, s') => (none, s')
    else (none, s)
  else (none, s)

/-! ## The counter is back -/

section

variable {loops : List Loop} {S : Simplifier} {out : Access}

theorem resolveCounting_eq {e : Expr V} {decomp : Counting V → Bool × Counting V}
    (decomp' : ℕ → Emitter V → Bool × Emitter V) (h : ∀ s, decomp s = uncounted (decomp' s.1) s)
    (s : Counting V) :
    resolveCounting loops S out e decomp s = uncounted (resolveWith loops S out e (decomp' s.1)) s := by
  cases hscalar : isLoopInvariantScalarLike loops e with
  | true => simp [resolveCounting, uncounted, resolveWith, hscalar]
  | false =>
    cases e with
    | var x => simp [resolveCounting, uncounted, resolveWith, hscalar]
    | load buf indices => simp [resolveCounting, uncounted, resolveWith, hscalar]
    | _ =>
      simp only [resolveCounting, resolveWith, hscalar, h, uncounted, Bool.false_eq_true, if_false]
      obtain ⟨b, st, hd⟩ : ∃ b st, decomp' s.1 s.2 = (b, st) := ⟨_, _, rfl⟩
      rw [hd]
      cases b <;> rfl

theorem handleUnaryCounting_eq {op : UnaryOp} {a : Expr V}
    {resolve : Counting V → Option Access × Counting V}
    (resolve' : ℕ → Emitter V → Option Access × Emitter V)
    (h : ∀ s, resolve s = uncounted (resolve' s.1) s) (s : Counting V) :
    handleUnaryCounting out op a resolve s =
      uncounted (handleUnary out (s.1 + 1) op a (resolve' (s.1 + 1))) s := by
  simp only [handleUnaryCounting, depthGuard, uncounted, handleUnary, h]
  split
  · rfl
  · obtain ⟨r, st, hr⟩ : ∃ r st, resolve' (s.1 + 1) s.2 = (r, st) := ⟨_, _, rfl⟩
    rw [hr]
    cases r <;> rfl

theorem handleBinaryCounting_eq {op : BinaryOp} {a b : Expr V}
    {resolveA resolveB : Counting V → Option Access × Counting V}
    (resolveA' resolveB' : ℕ → Emitter V → Option Access × Emitter V)
    (hA : ∀ s, resolveA s = uncounted (resolveA' s.1) s)
    (hB : ∀ s, resolveB s = uncounted (resolveB' s.1) s) (s : Counting V) :
    handleBinaryCounting out op a b resolveA resolveB s =
      uncounted (handleBinary out (s.1 + 1) op a b (resolveA' (s.1 + 1)) (resolveB' (s.1 + 1))) s := by
  simp only [handleBinaryCounting, depthGuard, uncounted, handleBinary, hA, hB]
  split <;> rfl

theorem resolveTernaryCounting_eq {e : Expr V} {t : DType}
    {resolve : Counting V → Option Access × Counting V}
    (resolve' : ℕ → Emitter V → Option Access × Emitter V)
    (h : ∀ s, resolve s = uncounted (resolve' s.1) s) (s : Counting V) :
    resolveTernaryCounting loops out e resolve t s =
      uncounted (resolveTernaryOperand loops out e (resolve' s.1) t) s := by
  simp only [resolveTernaryCounting, uncounted, resolveTernaryOperand, h]
  split <;> rfl

theorem handleTernaryCounting_eq {c t f : Expr V}
    {resolveC resolveT resolveF : Counting V → Option Access × Counting V}
    (resolveC' resolveT' resolveF' : ℕ → Emitter V → Option Access × Emitter V)
    (hC : ∀ s, resolveC s = uncounted (resolveC' s.1) s)
    (hT : ∀ s, resolveT s = uncounted (resolveT' s.1) s)
    (hF : ∀ s, resolveF s = uncounted (resolveF' s.1) s) (s : Counting V) :
    handleTernaryCounting loops out c t f resolveC resolveT resolveF s =
      uncounted (handleTernary loops out c t f (resolveC' (s.1 + 1)) (resolveT' (s.1 + 1))
        (resolveF' (s.1 + 1))) s := by
  simp only [handleTernaryCounting, depthGuard, handleTernary, resolveTernaryCounting_eq _ hC,
    resolveTernaryCounting_eq _ hT, resolveTernaryCounting_eq _ hF, uncounted]
  obtain ⟨rc, st₁, hc⟩ : ∃ rc st₁, resolveTernaryOperand loops out c (resolveC' (s.1 + 1)) .bool s.2 =
    (rc, st₁) := ⟨_, _, rfl⟩
  obtain ⟨rt, st₂, ht⟩ : ∃ rt st₂, resolveTernaryOperand loops out t (resolveT' (s.1 + 1))
    out.buffer.dtype st₁ = (rt, st₂) := ⟨_, _, rfl⟩
  obtain ⟨rf, st₃, hf⟩ : ∃ rf st₃, resolveTernaryOperand loops out f (resolveF' (s.1 + 1))
    out.buffer.dtype st₂ = (rf, st₃) := ⟨_, _, rfl⟩
  simp only [hc, ht, hf]
  cases rc <;> cases rt <;> cases rf <;> rfl

theorem resolveOperandCounting_eq {e : Expr V}
    (h : ∀ s, decomposeCounting loops S out e s = uncounted (decompose loops S out s.1 e) s) :
    ∀ s, resolveCounting loops S out e (decomposeCounting loops S out e) s =
      uncounted (resolveOperand loops S out s.1 e) s :=
  resolveCounting_eq (fun d => decompose loops S out d e) h

/-- Decomposing an expression leaves the counter as it was, and does what it does with the
depth as an argument. -/
theorem decomposeCounting_eq (e : Expr V) :
    ∀ s, decomposeCounting loops S out e s = uncounted (decompose loops S out s.1 e) s := by
  induction e with
  | load buf indices => exact fun _ => rfl
  | var x => exact fun _ => rfl
  | imm x t => exact fun _ => rfl
  | other k t vars loads => exact fun _ => rfl
  | unary op a ih =>
    exact handleUnaryCounting_eq (fun d => resolveOperand loops S out d a) (resolveOperandCounting_eq ih)
  | binary op a b iha ihb =>
    exact handleBinaryCounting_eq (fun d => resolveOperand loops S out d a)
      (fun d => resolveOperand loops S out d b) (resolveOperandCounting_eq iha) (resolveOperandCounting_eq ihb)
  | ifThenElse c t f ihc iht ihf =>
    exact handleTernaryCounting_eq (fun d => resolveOperand loops S out d c)
      (fun d => resolveOperand loops S out d t) (fun d => resolveOperand loops S out d f)
      (resolveOperandCounting_eq ihc) (resolveOperandCounting_eq iht) (resolveOperandCounting_eq ihf)

/-- So does an attempt at a store, whether it succeeds or not. -/
theorem vectorizeCounting_eq {buf : Buffer} {indices : List Index} {value : Expr V} (st : Emitter V) :
    vectorizeCounting S loops buf indices value (0, st) =
      uncounted (vectorizeSingleStatement S loops buf indices value) (0, st) := by
  simp only [vectorizeCounting, uncounted, vectorizeSingleStatement, decomposeCounting_eq]
  split
  · split
    · obtain ⟨b, st', hd⟩ : ∃ b st', decompose loops S ⟨buf, indices⟩ 0 value
        { st with stmts := [], tmpBufs := [] } = (b, st') := ⟨_, _, rfl⟩
      rw [hd]
      cases b <;> rfl
    · rfl
  · rfl

theorem vectorizeCounting_depth {buf : Buffer} {indices : List Index} {value : Expr V}
    (s : Counting V) : (vectorizeCounting S loops buf indices value s).2.1 = s.1 := by
  simp only [vectorizeCounting, decomposeCounting_eq]
  split
  · split
    · split
      · rename_i hd
        exact (congrArg (fun r => r.2.1) hd).symm
      · rename_i hd
        exact (congrArg (fun r => r.2.1) hd).symm
    · rfl
  · rfl

end

end TileLangNpuir.LoopVectorize
