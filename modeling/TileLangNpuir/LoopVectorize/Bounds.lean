import TileLangNpuir.LoopVectorize.Value

/-!
# Accesses to temporaries

Whether `LoopDecompose` stays inside the temporaries it creates. A temporary takes
its shape from the loop extents, from a loaded buffer or from the output buffer,
and it is accessed at the indices of the output, at those of the load or at zero.
The two agree exactly when the access they come from is in bounds, so the
decomposition is run once more on the origins of its accesses instead of on the
accesses themselves (`Trace`), and the two runs are related step by step.
-/

namespace TileLangNpuir.LoopVectorize

variable {V : Type}

/-- The access has the rank of the buffer, and every index is nonnegative and
smaller than its dimension. -/
def InBounds (ρ : Var → ℤ) (buf : Buffer) (indices : List Index) : Prop :=
  List.Forall₂ (fun e n => 0 ≤ e.eval ρ ∧ e.eval ρ < n.eval ρ) indices buf.shape

instance (ρ : Var → ℤ) (buf : Buffer) (indices : List Index) :
    Decidable (InBounds ρ buf indices) :=
  inferInstanceAs (Decidable (List.Forall₂ _ _ _))

/-- The regions of an operand. -/
def Arg.regions : Arg V → List Region
  | region r => [r]
  | scalar _ => []

/-- The regions of a call. -/
def TileCall.regions : TileCall V → List Region
  | unary _ src dst => src.regions ++ [dst]
  | binary _ a b dst => a.regions ++ b.regions ++ [dst]
  | select c t f dst => c.regions ++ t.regions ++ f.regions ++ [dst]
  | copy src dst => src.regions ++ [dst]
  | brc src dst => src.regions ++ [dst]
  | reshape src dst => [src, dst]
  | arange dst _ _ => [dst]

/-- The tile calls of a statement. -/
def Stmt.calls : Stmt V → List (TileCall V)
  | seq s t => s.calls ++ t.calls
  | forLoop _ _ _ _ body => body.calls
  | ifThenElse _ thenCase elseCase => thenCase.calls ++ elseCase.calls
  | letStmt _ _ body => body.calls
  | store _ _ _ => []
  | eval call => [call]
  | nop => []

/-- Every index list the calls use on a buffer from `base` on is in bounds. -/
def TempsInBounds (ρ : Var → ℤ) (base : ℕ) (cs : List (TileCall V)) : Prop :=
  ∀ c ∈ cs, ∀ r ∈ c.regions, base ≤ r.buf.id → InBounds ρ r.buf r.offsets

instance (ρ : Var → ℤ) (base : ℕ) (cs : List (TileCall V)) :
    Decidable (TempsInBounds ρ base cs) :=
  inferInstanceAs (Decidable (∀ c ∈ cs, ∀ r ∈ c.regions, base ≤ r.buf.id → _))

/-! ## Where accesses come from -/

/-- Where the shape and the indices of an access come from. -/
inductive Origin : Type where
  /-- a load -/
  | load (buf : Buffer) (indices : List Index)
  /-- the loop extents, at the indices of the output -/
  | aligned
  /-- the output -/
  | output
  /-- the shape of the output, at zero -/
  | zeros

/-- When an access of that origin is in bounds. -/
def Origin.Holds (loops : List Loop) (out : Access) (ρ : Var → ℤ) : Origin → Prop
  | load buf indices => InBounds ρ buf indices
  | aligned => ∀ e ∈ out.indices, outLevel loops e = none → e.eval ρ = 0
  | output => InBounds ρ out.buffer out.indices
  | zeros => ∀ n ∈ out.buffer.shape, 0 < n.eval ρ

/-- An access, as far as its bounds matter. -/
structure Operand : Type where
  origin : Origin
  /-- whether it is an access to a temporary -/
  temp : Bool

/-- What is left of an `Emitter`. -/
structure Trace : Type where
  /-- `tmp_bufs->back()` -/
  last : Option Operand
  /-- the origins of the accesses to temporaries -/
  accessed : List Origin

namespace Trace

/-- Register a temporary in `tmp_bufs`. -/
def push (μ : Trace) (p : Operand) : Trace := { μ with last := some p }

/-- A call with these region operands. -/
def call (μ : Trace) (ps : List Operand) : Trace :=
  { μ with accessed := μ.accessed ++ (ps.filter Operand.temp).map Operand.origin }

/-- A new temporary shaped like `ref`, registered in `tmp_bufs`. -/
def temp (μ : Trace) (ref : Operand) : Operand × Trace :=
  let p : Operand := ⟨ref.origin, true⟩
  (p, μ.push p)

end Trace

/-- `output_ref`. -/
def outOperand : Operand := ⟨.output, false⟩

/-- `resultAccess`, on origins. -/
def resultOperand (depth : ℕ) (ref : Operand) (μ : Trace) : Operand × Trace :=
  if 1 < depth then μ.temp ref else (outOperand, μ)

section

variable (loops : List Loop) (S : Simplifier) (out : Access)

/-- `resolveWith`, on origins. -/
def resolveOrigin (e : Expr V) (decomp : Trace → Bool × Trace) (μ : Trace) :
    Option Operand × Trace :=
  if isLoopInvariantScalarLike loops e then (none, μ)
  else
    match e with
    | .var x =>
      match loopOf loops x with
      | some _ => (some ⟨.aligned, true⟩, μ.push ⟨.aligned, true⟩)
      | none => (none, μ)
    | .load buf indices =>
      if validBufferIndices indices then
        match indices.mapM (isSupportedVectorLoadIndex loops S) with
        | some indices' =>
          if checkNeedsReshapeBrc loops indices' out.indices.length then
            (some ⟨.aligned, true⟩, μ.push ⟨.aligned, true⟩)
          else (some ⟨.load buf indices, false⟩, μ)
        | none => (none, μ)
      else (none, μ)
    | _ =>
      match decomp μ with
      | (true, μ') => (μ'.last, μ')
      | (false, μ') => (none, μ')

/-- `handleUnary`, on origins. -/
def traceUnary (depth : ℕ) (op : UnaryOp) (a : Expr V)
    (resolve : Trace → Option Operand × Trace) (μ : Trace) : Bool × Trace :=
  if rankReducingCast out op a then (false, μ)
  else
    match resolve μ with
    | (none, μ) => (false, μ)
    | (some src, μ) =>
      let (dst, μ) := resultOperand depth src μ
      (true, μ.call [src, dst])

/-- `scalarArg`, on origins. -/
def scalarOperand (e : Expr V) (ref : Operand) (μ : Trace) : List Operand × Trace :=
  if e.isScalar || e.isVar then ([], μ)
  else
    let (tmp, μ) := μ.temp ref
    ([tmp], μ.call [tmp])

/-- `binaryArgs`, on origins. -/
def binaryOperands (op : BinaryOp) (a b : Expr V) (ra rb : Option Operand) (μ : Trace) :
    Option (List Operand × List Operand × Operand × Trace) :=
  match ra, rb with
  | none, none => none
  | some x, some y => some ([x], [y], x, μ)
  | none, some y =>
    if swapsOperands op then some ([y], [], y, μ)
    else
      let (arg, μ) := scalarOperand a y μ
      some (arg, [y], y, μ)
  | some x, none =>
    let (arg, μ) := scalarOperand b x μ
    some ([x], arg, x, μ)

/-- `handleBinary`, on origins. -/
def traceBinary (depth : ℕ) (op : BinaryOp) (a b : Expr V)
    (resolveA resolveB : Trace → Option Operand × Trace) (μ : Trace) : Bool × Trace :=
  if canLowerBinaryOpToNpuir op (Expr.binary op a b).dtype then
    let (ra, μ) := resolveA μ
    let (rb, μ) := resolveB μ
    match binaryOperands (if op = .floorDiv then .div else op) a b ra rb μ with
    | none => (false, μ)
    | some (argA, argB, ref, μ) =>
      if op = .floorMod then
        let (quotient, μ) := μ.temp ref
        let μ := μ.call (argA ++ argB ++ [quotient])
        let (product, μ) := μ.temp ref
        let μ := μ.call ([quotient] ++ argB ++ [product])
        let (dst, μ) := resultOperand depth ref μ
        (true, μ.call (argA ++ [product] ++ [dst]))
      else
        let (dst, μ) := resultOperand depth ref μ
        (true, μ.call (argA ++ argB ++ [dst]))
  else (false, μ)

/-- `resolveTernaryOperand`, on origins. A scalar hoisted out of the nest is
registered at the indices of the output and returned at zero. -/
def resolveTernaryOrigin (e : Expr V) (resolve : Trace → Option Operand × Trace) (μ : Trace) :
    Option Operand × Trace :=
  if isLoopInvariantScalarLike loops e then
    let (tmp, μ) := μ.temp outOperand
    (some tmp, μ.call [tmp])
  else
    match resolve μ with
    | (some p, μ) => (some p, μ)
    | (none, μ) =>
      if containsAnyLoopVar loops e.vars then (none, μ)
      else (some ⟨.zeros, true⟩, (μ.temp outOperand).2.call [⟨.zeros, true⟩])

/-- `handleTernary`, on origins. -/
def traceTernary (c t f : Expr V) (resolveC resolveT resolveF : Trace → Option Operand × Trace)
    (μ : Trace) : Bool × Trace :=
  let (rc, μ) := resolveTernaryOrigin loops c resolveC μ
  let (rt, μ) := resolveTernaryOrigin loops t resolveT μ
  let (rf, μ) := resolveTernaryOrigin loops f resolveF μ
  match rc, rt, rf with
  | some c, some t, some f => (true, μ.call [c, t, f, outOperand])
  | _, _, _ => (false, μ)

/-- `decompose`, on origins. -/
def trace : ℕ → Expr V → Trace → Bool × Trace
  | _, .load buf indices, μ => (true, μ.call [⟨.load buf indices, false⟩, outOperand])
  | _, .var x, μ =>
    match resolveOrigin (V := V) loops S out (.var x) (fun μ => (false, μ)) μ with
    | (some src, μ) => (true, μ.call [src, outOperand])
    | (none, μ) => (false, μ)
  | _, .imm _ _, μ => (true, μ.call [outOperand])
  | depth, .unary op a, μ =>
    traceUnary out (depth + 1) op a (resolveOrigin loops S out a (trace (depth + 1) a)) μ
  | depth, .binary op a b, μ =>
    traceBinary (depth + 1) op a b (resolveOrigin loops S out a (trace (depth + 1) a))
      (resolveOrigin loops S out b (trace (depth + 1) b)) μ
  | depth, .ifThenElse c t f, μ =>
    traceTernary loops c t f (resolveOrigin loops S out c (trace (depth + 1) c))
      (resolveOrigin loops S out t (trace (depth + 1) t))
      (resolveOrigin loops S out f (trace (depth + 1) f)) μ
  | _, .other _ _ _ _, μ => (false, μ)

/-- The origins of the temporaries that decomposing a right-hand side accesses. -/
def tempOrigins (e : Expr V) : List Origin := (trace loops S out 0 e ⟨none, []⟩).2.accessed

end

/-! ## The two runs side by side -/

section Mirror

variable {base : ℕ} {ρ : Var → ℤ} {loops : List Loop} {out : Access}

/-- The operand says where the access comes from. -/
structure Describes (base : ℕ) (ρ : Var → ℤ) (loops : List Loop) (out : Access) (p : Operand)
    (buf : Buffer) (indices : List Index) : Prop where
  temp : base ≤ buf.id ↔ p.temp = true
  inBounds : InBounds ρ buf indices ↔ p.origin.Holds loops out ρ

/-- The trace has the last temporary of the emitter and its accesses to temporaries. -/
structure Mirrors (base : ℕ) (ρ : Var → ℤ) (loops : List Loop) (out : Access) (st : Emitter V)
    (μ : Trace) : Prop where
  next : base ≤ st.next
  last : Option.Rel (fun a p => Describes base ρ loops out p a.buffer a.indices)
    st.tmpBufs.getLast? μ.last
  inBounds : TempsInBounds ρ base (st.hoisted ++ st.stmts) ↔
    ∀ o ∈ μ.accessed, o.Holds loops out ρ

/-- Resolving an operand goes the same way in both. -/
structure Resolves (base : ℕ) (ρ : Var → ℤ) (loops : List Loop) (out : Access)
    (r : Option Access × Emitter V) (q : Option Operand × Trace) : Prop where
  operand : Option.Rel (fun a p => Describes base ρ loops out p a.buffer a.indices) r.1 q.1
  mirrors : Mirrors base ρ loops out r.2 q.2

/-- Decomposing an expression goes the same way in both. -/
structure Decomposes (base : ℕ) (ρ : Var → ℤ) (loops : List Loop) (out : Access)
    (r : Bool × Emitter V) (q : Bool × Trace) : Prop where
  success : r.1 = q.1
  mirrors : Mirrors base ρ loops out r.2 q.2

/-- The region operands of a call or an argument, one by one. -/
def DescribesAll (base : ℕ) (ρ : Var → ℤ) (loops : List Loop) (out : Access) (rs : List Region)
    (ps : List Operand) : Prop :=
  List.Forall₂ (fun r p => Describes base ρ loops out p r.buf r.offsets) rs ps

theorem tempsInBounds_append {cs ds : List (TileCall V)} :
    TempsInBounds ρ base (cs ++ ds) ↔ TempsInBounds ρ base cs ∧ TempsInBounds ρ base ds :=
  List.forall_mem_append

theorem tempsInBounds_cons {c : TileCall V} {cs : List (TileCall V)} :
    TempsInBounds ρ base (c :: cs) ↔
      (∀ r ∈ c.regions, base ≤ r.buf.id → InBounds ρ r.buf r.offsets) ∧
        TempsInBounds ρ base cs :=
  List.forall_mem_cons

theorem tempsInBounds_singleton {c : TileCall V} :
    TempsInBounds ρ base [c] ↔ ∀ r ∈ c.regions, base ≤ r.buf.id → InBounds ρ r.buf r.offsets :=
  List.forall_mem_singleton

theorem DescribesAll.inBounds {rs : List Region} {ps : List Operand}
    (h : DescribesAll base ρ loops out rs ps) :
    (∀ r ∈ rs, base ≤ r.buf.id → InBounds ρ r.buf r.offsets) ↔
      ∀ o ∈ (ps.filter Operand.temp).map Operand.origin, o.Holds loops out ρ := by
  induction h with
  | nil => simp
  | @cons r p rs ps hd _ ih =>
    rw [List.forall_mem_cons, ih, hd.temp, hd.inBounds]
    rcases hp : p.temp with _ | _
    · simp [hp]
    · simp [hp]

theorem DescribesAll.append {rs rs' : List Region} {ps ps' : List Operand}
    (h : DescribesAll base ρ loops out rs ps) (h' : DescribesAll base ρ loops out rs' ps') :
    DescribesAll base ρ loops out (rs ++ rs') (ps ++ ps') :=
  List.rel_append h h'

theorem Describes.all {p : Operand} {a : Access}
    (h : Describes base ρ loops out p a.buffer a.indices) :
    DescribesAll base ρ loops out [buildRegionCall a] [p] :=
  .cons h .nil

variable {st : Emitter V} {μ : Trace}

/-- A statement of the loop body. -/
theorem Mirrors.stmt (h : Mirrors base ρ loops out st μ) {c : TileCall V} {ps : List Operand}
    (hc : DescribesAll base ρ loops out c.regions ps) :
    Mirrors base ρ loops out (st.stmt c) (μ.call ps) := by
  refine ⟨h.next, h.last, ?_⟩
  rw [Emitter.stmt, Trace.call, ← List.append_assoc, tempsInBounds_append, h.inBounds,
    tempsInBounds_singleton, hc.inBounds, List.forall_mem_append]

/-- A new temporary shaped like `ref`. -/
theorem Mirrors.temp (h : Mirrors base ρ loops out st μ) {ref : Access} {p : Operand}
    (href : InBounds ρ ref.buffer ref.indices ↔ p.origin.Holds loops out ρ) (t : DType) :
    Describes base ρ loops out (μ.temp p).1 (st.temp ref t).1.buffer (st.temp ref t).1.indices ∧
      Mirrors base ρ loops out (st.temp ref t).2 (μ.temp p).2 := by
  have hd : Describes base ρ loops out (μ.temp p).1 (st.temp ref t).1.buffer
      (st.temp ref t).1.indices :=
    ⟨iff_of_true h.next rfl, href⟩
  refine ⟨hd, Nat.le_succ_of_le h.next, ?_, h.inBounds⟩
  simp only [Emitter.temp, Emitter.pushTmp, List.getLast?_concat]
  exact .some hd

/-- Hoisted statements that stay in bounds, and the access that reads what they
fill. -/
theorem Mirrors.hoist (h : Mirrors base ρ loops out st μ) {cs : List (TileCall V)} {a : Access}
    {p : Operand} {e : Expr V} {n : ℕ} (hn : st.next ≤ n) (hcs : TempsInBounds ρ base cs)
    (ha : Describes base ρ loops out p a.buffer a.indices) :
    Resolves base ρ loops out (some a, (st.hoist cs a e n).pushTmp a) (some p, μ.push p) := by
  refine ⟨.some ha, le_trans h.next hn, ?_, ?_⟩
  · simp only [Emitter.pushTmp, List.getLast?_concat]
    exact .some ha
  · simp only [Emitter.pushTmp, Emitter.hoist, Trace.push]
    rw [tempsInBounds_append, tempsInBounds_append, and_iff_left hcs, ← tempsInBounds_append,
      h.inBounds]

end Mirror

/-! ## Hoisted temporaries -/

section Hoisted

variable {base : ℕ} {ρ : Var → ℤ} {loops : List Loop} {out : Access}

/-- `ρ` is inside the loops, which start at zero. -/
def InLoops (loops : List Loop) (ρ : Var → ℤ) : Prop :=
  ∀ l ∈ loops, 0 ≤ ρ l.var ∧ ρ l.var < l.extent

theorem InLoops.extentOf_pos (hρ : InLoops loops ρ) (j : ℕ) : 0 < extentOf loops j := by
  rw [extentOf]
  rcases h : loops[j]? with _ | l
  · exact Int.one_pos
  · have hl := hρ l (List.mem_of_getElem? h)
    simp only [Option.map_some, Option.getD_some]
    omega

theorem InLoops.level_pos (hρ : InLoops loops ρ) (j : Option ℕ) :
    0 < (j.map (extentOf loops)).getD 1 := by
  cases j with
  | none => exact Int.one_pos
  | some j => exact hρ.extentOf_pos j

theorem inBounds_zeros (buf : Buffer) :
    InBounds ρ buf (makeZeroOffsets buf.shape.length) ↔ ∀ n ∈ buf.shape, 0 < n.eval ρ := by
  rw [InBounds]
  induction buf.shape with
  | nil => simp [makeZeroOffsets]
  | cons n ns ih =>
    rw [List.length_cons, makeZeroOffsets, List.replicate_succ, List.forall₂_cons,
      List.forall_mem_cons, ← makeZeroOffsets, ih]
    exact and_congr_left' (and_iff_right le_rfl)

/-- A buffer shaped by positive sizes, filled as a whole. -/
theorem inBounds_origin {id n : ℕ} {sizes : List ℤ} {t : DType} (hn : sizes.length = n)
    (hpos : ∀ x ∈ sizes, 0 < x) :
    InBounds ρ ⟨id, sizes.map .const, t⟩ (makeZeroOffsets n) := by
  have hlen : n = (Buffer.mk id (sizes.map .const) t).shape.length := by
    rw [List.length_map, hn]
  rw [hlen, inBounds_zeros]
  intro e he
  obtain ⟨x, hx, rfl⟩ := List.mem_map.mp he
  exact hpos x hx

/-- A buffer shaped by the loop extents, at the indices of the output. -/
theorem inBounds_aligned (hρ : InLoops loops ρ) {id : ℕ} {t : DType} :
    InBounds ρ ⟨id, (alignedBrcShape loops out.indices).map .const, t⟩ out.indices ↔
      Origin.aligned.Holds loops out ρ := by
  rw [InBounds, alignedBrcShape, List.map_map, List.forall₂_map_right_iff, List.forall₂_same]
  refine forall₂_congr fun e _ => ?_
  simp only [Function.comp_apply, Index.eval]
  rcases h : outLevel loops e with _ | j
  · simp only [Option.map_none, Option.getD_none, forall_const]
    omega
  · obtain ⟨l, rfl, hl⟩ := outLevel_eq_some h
    simpa [Index.eval, extentOf, hl] using hρ l (List.mem_of_getElem? hl)

theorem alignedViewShape_pos (hρ : InLoops loops ρ) (indices outIndices : List Index) :
    ∀ x ∈ alignedViewShape loops indices outIndices, 0 < x := by
  intro x hx
  obtain ⟨e, -, rfl⟩ := List.mem_map.mp hx
  split
  · split
    · exact hρ.extentOf_pos _
    · exact Int.one_pos
  · exact Int.one_pos

/-- Sizes taken from loop levels are positive. -/
theorem levels_pos (hρ : InLoops loops ρ) (level : Index → Option ℕ) (indices : List Index) :
    ∀ x ∈ indices.map fun e => ((level e).map (extentOf loops)).getD 1, 0 < x := by
  intro x hx
  obtain ⟨e, -, rfl⟩ := List.mem_map.mp hx
  exact hρ.level_pos _

/-- The copy, reshape and broadcast of a load stay in bounds. -/
theorem emitReshapeAndBroadcast_inBounds (hρ : InLoops loops ρ) {buf : Buffer}
    (hbuf : buf.id < base) {indices : List Index} {next : ℕ} (hnext : base ≤ next)
    {cs : List (TileCall V)} {a : Access} {n : ℕ}
    (hr : emitReshapeAndBroadcast loops buf indices out next = (cs, a, n)) :
    TempsInBounds ρ base cs ∧
      Describes base ρ loops out ⟨.aligned, true⟩ a.buffer a.indices ∧ next ≤ n := by
  have hlocal {id : ℕ} {t : DType} : InBounds ρ ⟨id, (srcSizes loops indices).map .const, t⟩
      (makeZeroOffsets indices.length) :=
    inBounds_origin (List.length_map _) (levels_pos hρ _ indices)
  have hview {id : ℕ} {t : DType} :
      InBounds ρ ⟨id, (alignedViewShape loops indices out.indices).map .const, t⟩
        (makeZeroOffsets out.indices.length) :=
    inBounds_origin (List.length_map _) (alignedViewShape_pos hρ indices out.indices)
  have hbrc {id : ℕ} {t : DType} :
      InBounds ρ ⟨id, (alignedBrcShape loops out.indices).map .const, t⟩
        (makeZeroOffsets out.indices.length) :=
    inBounds_origin (List.length_map _) (levels_pos hρ _ out.indices)
  rw [emitReshapeAndBroadcast] at hr
  split at hr
  · -- the view has the shape of the broadcast
    rename_i hshape
    obtain ⟨rfl, rfl, rfl⟩ := by simpa only [Prod.mk.injEq] using hr
    refine ⟨?_, ⟨iff_of_true (by simp only; omega) rfl, ?_⟩, by omega⟩
    · rw [tempsInBounds_cons, tempsInBounds_singleton]
      exact ⟨List.forall_mem_cons.mpr ⟨fun h => absurd h (by simp only [regionND]; omega),
          List.forall_mem_singleton.mpr fun _ => hlocal⟩,
        List.forall_mem_cons.mpr ⟨fun _ => hlocal, List.forall_mem_singleton.mpr fun _ => hview⟩⟩
    · rw [← hshape]
      exact inBounds_aligned hρ
  · obtain ⟨rfl, rfl, rfl⟩ := by simpa only [Prod.mk.injEq] using hr
    refine ⟨?_, ⟨iff_of_true (by simp only; omega) rfl, inBounds_aligned hρ⟩, by omega⟩
    rw [tempsInBounds_cons, tempsInBounds_cons, tempsInBounds_singleton]
    exact ⟨List.forall_mem_cons.mpr ⟨fun h => absurd h (by simp only [regionND]; omega),
        List.forall_mem_singleton.mpr fun _ => hlocal⟩,
      List.forall_mem_cons.mpr ⟨fun _ => hlocal, List.forall_mem_singleton.mpr fun _ => hview⟩,
      List.forall_mem_cons.mpr ⟨fun _ => hview, List.forall_mem_singleton.mpr fun _ => hbrc⟩⟩

variable {N : Stack}

/-- The arange of a loop variable stays in bounds. -/
theorem emitLoopVarArange_inBounds (hρ : InLoops N.loops ρ)
    (hidx : ∀ e ∈ out.indices, e.isVar = true ∨ e.isConst = true) {next j : ℕ}
    (hnext : base ≤ next) {c : TileCall V} {a : Access}
    (hr : emitLoopVarArange N.loops j out next = (c, a)) :
    TempsInBounds ρ base [c] ∧
      Describes base ρ N.loops out ⟨.aligned, true⟩ a.buffer a.indices := by
  have hshape : getAlignedLoopShape N.loops out.indices = alignedBrcShape N.loops out.indices := by
    refine List.map_congr_left fun e he => ?_
    rw [indexToLoop_out (hidx e he)]
  rw [emitLoopVarArange, hshape] at hr
  obtain ⟨rfl, rfl⟩ := by simpa only [Prod.mk.injEq] using hr
  refine ⟨?_, iff_of_true hnext rfl, inBounds_aligned hρ⟩
  rw [tempsInBounds_singleton, TileCall.regions, List.forall_mem_singleton]
  exact fun _ => inBounds_origin (List.length_map _) (levels_pos hρ _ out.indices)

end Hoisted

/-! ## Decomposition -/

section Decomposition

variable {base : ℕ} {ρ : Var → ℤ} {N : Stack} {S : Simplifier} {out : Access} {st : Emitter V}
  {μ : Trace}

theorem inBounds_simplify {buf : Buffer} (indices : List Index) :
    InBounds ρ buf (indices.map S.simplify) ↔ InBounds ρ buf indices := by
  rw [InBounds, InBounds, List.forall₂_map_left_iff]
  simp only [S.eval_simplify]

theorem inBounds_out :
    InBounds ρ out.buffer out.indices ↔ outOperand.origin.Holds N.loops out ρ :=
  Iff.rfl

theorem describes_out (hout : out.buffer.id < base) :
    Describes base ρ N.loops out outOperand out.buffer out.indices :=
  ⟨iff_of_false (Nat.not_le_of_lt hout) nofun, inBounds_out⟩

theorem Mirrors.unresolved (h : Mirrors base ρ N.loops out st μ) :
    Resolves base ρ N.loops out (none, st) (none, μ) :=
  ⟨.none, h⟩

/-- An operand is resolved from the same origin. -/
theorem resolveWith_resolves (hρ : InLoops N.loops ρ)
    (hidx : ∀ e ∈ out.indices, e.isVar = true ∨ e.isConst = true) {e : Expr V}
    (hloads : ∀ l ∈ e.loads, l.1.id < base) {decomp : Emitter V → Bool × Emitter V}
    {decompOrigin : Trace → Bool × Trace}
    (hdecomp : Decomposes base ρ N.loops out (decomp st) (decompOrigin μ))
    (h : Mirrors base ρ N.loops out st μ) :
    Resolves base ρ N.loops out (resolveWith N.loops S out e decomp st)
      (resolveOrigin N.loops S out e decompOrigin μ) := by
  unfold resolveWith resolveOrigin
  by_cases hinv : isLoopInvariantScalarLike N.loops e = true
  · rw [if_pos hinv, if_pos hinv]
    exact h.unresolved
  · rw [if_neg hinv, if_neg hinv]
    cases e with
    | var x =>
      simp only
      rcases loopOf N.loops x with _ | j
      · exact h.unresolved
      · obtain ⟨hc, ha⟩ := emitLoopVarArange_inBounds (V := V) (j := j) hρ hidx h.next rfl
        exact h.hoist (Nat.le_succ _) hc ha
    | load buf indices =>
      simp only
      split
      · rcases hsup : indices.mapM (isSupportedVectorLoadIndex N.loops S) with _ | indices'
        · exact h.unresolved
        · obtain ⟨rfl, -⟩ := supported_of_mapM hsup
          simp only
          have hbuf : buf.id < base := hloads (buf, indices) List.mem_cons_self
          split
          · obtain ⟨hcs, ha, hn⟩ :=
              emitReshapeAndBroadcast_inBounds (V := V) hρ hbuf h.next rfl
            exact h.hoist hn hcs ha
          · have hload : Describes base ρ N.loops out ⟨.load buf indices, false⟩ buf
                (indices.map S.simplify) :=
              ⟨iff_of_false (Nat.not_le_of_lt hbuf) Bool.false_ne_true, inBounds_simplify indices⟩
            exact ⟨.some hload, h⟩
      · exact h.unresolved
    | _ =>
      simp only
      generalize decomp st = r at hdecomp ⊢
      generalize decompOrigin μ = q at hdecomp ⊢
      obtain ⟨b, st'⟩ := r
      obtain ⟨b', μ'⟩ := q
      obtain ⟨hsuccess, hm⟩ := hdecomp
      obtain rfl : b = b' := hsuccess
      cases b with
      | true => exact ⟨hm.last, hm⟩
      | false => exact hm.unresolved

/-- The result of a handler goes to the same place. -/
theorem resultAccess_describes (hout : out.buffer.id < base) (depth : ℕ) {ref : Access}
    {p : Operand} (href : Describes base ρ N.loops out p ref.buffer ref.indices) (t : DType)
    (h : Mirrors base ρ N.loops out st μ) :
    Describes base ρ N.loops out (resultOperand depth p μ).1
        (resultAccess depth out ref t st).1.buffer (resultAccess depth out ref t st).1.indices ∧
      Mirrors base ρ N.loops out (resultAccess depth out ref t st).2 (resultOperand depth p μ).2 := by
  rw [resultAccess, resultOperand]
  split
  · exact h.temp href.inBounds t
  · exact ⟨describes_out hout, h⟩

theorem handleUnary_decomposes (hout : out.buffer.id < base) {op : UnaryOp} {a : Expr V}
    {depth : ℕ} {resolve : Emitter V → Option Access × Emitter V}
    {resolveO : Trace → Option Operand × Trace} (h : Mirrors base ρ N.loops out st μ)
    (hresolve : Resolves base ρ N.loops out (resolve st) (resolveO μ)) :
    Decomposes base ρ N.loops out (handleUnary out depth op a resolve st)
      (traceUnary out depth op a resolveO μ) := by
  rw [handleUnary, traceUnary]
  split
  · exact ⟨rfl, h⟩
  · revert hresolve
    generalize resolve st = r
    generalize resolveO μ = q
    rintro ⟨hop, hm⟩
    obtain ⟨ra, st₁⟩ := r
    obtain ⟨rp, μ₁⟩ := q
    cases hop with
    | none => exact ⟨rfl, hm⟩
    | some hsrc =>
      obtain ⟨hdst, hm₂⟩ := resultAccess_describes hout depth hsrc (Expr.unary op a).dtype hm
      exact ⟨rfl, hm₂.stmt (hsrc.all.append hdst.all)⟩

/-- A scalar operand is broadcast in both or in neither. -/
theorem scalarArg_describes (e : Expr V) {ref : Access} {p : Operand}
    (href : Describes base ρ N.loops out p ref.buffer ref.indices) (t : DType)
    (h : Mirrors base ρ N.loops out st μ) :
    DescribesAll base ρ N.loops out (scalarArg e ref t st).1.regions (scalarOperand e p μ).1 ∧
      Mirrors base ρ N.loops out (scalarArg e ref t st).2 (scalarOperand e p μ).2 := by
  rw [scalarArg, scalarOperand]
  split
  · exact ⟨.nil, h⟩
  · obtain ⟨htmp, hm⟩ := h.temp href.inBounds t
    exact ⟨htmp.all, hm.stmt htmp.all⟩

/-- The operands of a binary call. -/
structure BinaryDescribes (base : ℕ) (ρ : Var → ℤ) (loops : List Loop) (out : Access)
    (r : BinaryOp × Arg V × Arg V × Access × Emitter V)
    (q : List Operand × List Operand × Operand × Trace) : Prop where
  left : DescribesAll base ρ loops out r.2.1.regions q.1
  right : DescribesAll base ρ loops out r.2.2.1.regions q.2.1
  ref : Describes base ρ loops out q.2.2.1 r.2.2.2.1.buffer r.2.2.2.1.indices
  mirrors : Mirrors base ρ loops out r.2.2.2.2 q.2.2.2

theorem binaryArgs_describes (op : BinaryOp) (a b : Expr V) {ra rb : Option Access}
    {pa pb : Option Operand} (t : DType)
    (ha : Option.Rel (fun x p => Describes base ρ N.loops out p x.buffer x.indices) ra pa)
    (hb : Option.Rel (fun x p => Describes base ρ N.loops out p x.buffer x.indices) rb pb)
    (h : Mirrors base ρ N.loops out st μ) :
    Option.Rel (BinaryDescribes base ρ N.loops out) (binaryArgs op a b ra rb t st)
      (binaryOperands op a b pa pb μ) := by
  cases ha with
  | none =>
    cases hb with
    | none => exact .none
    | some hy =>
      rw [binaryArgs, binaryOperands]
      split
      · exact .some ⟨hy.all, .nil, hy, h⟩
      · obtain ⟨harg, hm⟩ := scalarArg_describes a hy t h
        exact .some ⟨harg, hy.all, hy, hm⟩
  | some hx =>
    cases hb with
    | none =>
      obtain ⟨harg, hm⟩ := scalarArg_describes b hx t h
      exact .some ⟨hx.all, harg, hx, hm⟩
    | some hy => exact .some ⟨hx.all, hy.all, hx, h⟩

theorem handleBinary_decomposes (hout : out.buffer.id < base) {op : BinaryOp} {a b : Expr V}
    {depth : ℕ} {resolveA resolveB : Emitter V → Option Access × Emitter V}
    {originA originB : Trace → Option Operand × Trace} (h : Mirrors base ρ N.loops out st μ)
    (hA : Resolves base ρ N.loops out (resolveA st) (originA μ))
    (hB : ∀ (st₁ : Emitter V) (μ₁ : Trace), Mirrors base ρ N.loops out st₁ μ₁ →
      Resolves base ρ N.loops out (resolveB st₁) (originB μ₁)) :
    Decomposes base ρ N.loops out (handleBinary out depth op a b resolveA resolveB st)
      (traceBinary depth op a b originA originB μ) := by
  rw [handleBinary, traceBinary]
  split
  · obtain ⟨ra, st₁, hra⟩ : ∃ ra st₁, resolveA st = (ra, st₁) := ⟨_, _, rfl⟩
    obtain ⟨pa, μ₁, hpa⟩ : ∃ pa μ₁, originA μ = (pa, μ₁) := ⟨_, _, rfl⟩
    rw [hra, hpa] at hA
    have hB₁ := hB st₁ μ₁ hA.mirrors
    obtain ⟨rb, st₂, hrb⟩ : ∃ rb st₂, resolveB st₁ = (rb, st₂) := ⟨_, _, rfl⟩
    obtain ⟨pb, μ₂, hpb⟩ : ∃ pb μ₂, originB μ₁ = (pb, μ₂) := ⟨_, _, rfl⟩
    rw [hrb, hpb] at hB₁
    simp only [hra, hpa, hrb, hpb]
    have hargs := binaryArgs_describes (if op = .floorDiv then .div else op) a b
      (inferBinaryComputeDType (if op = .floorDiv then .div else op) (Expr.binary op a b).dtype
        ra rb [a.dtype, b.dtype]) hA.operand hB₁.operand hB₁.mirrors
    revert hargs
    generalize binaryArgs _ a b ra rb _ st₂ = r
    generalize binaryOperands _ a b pa pb μ₂ = q
    intro hargs
    cases hargs with
    | none => exact ⟨rfl, hB₁.mirrors⟩
    | @some r q hrq =>
      obtain ⟨op₂, argA, argB, ref, st₃⟩ := r
      obtain ⟨psA, psB, p, μ₃⟩ := q
      obtain ⟨hleft, hright, href, hm⟩ := hrq
      simp only at hleft hright href hm ⊢
      split
      · -- the quotient and the product are temporaries of their own
        obtain ⟨hquot, hm⟩ := hm.temp href.inBounds _
        replace hm := hm.stmt (c := .binary .div argA argB _)
          ((hleft.append hright).append hquot.all)
        obtain ⟨hprod, hm⟩ := hm.temp href.inBounds _
        replace hm := hm.stmt (c := .binary .mul (.region _) argB _)
          ((hquot.all.append hright).append hprod.all)
        obtain ⟨hdst, hm⟩ := resultAccess_describes hout depth href _ hm
        exact ⟨rfl, hm.stmt ((hleft.append hprod.all).append hdst.all)⟩
      · obtain ⟨hdst, hm⟩ := resultAccess_describes hout depth href _ hm
        exact ⟨rfl, hm.stmt ((hleft.append hright).append hdst.all)⟩
  · exact ⟨rfl, h⟩

/-- A scalar hoisted out of the nest fills its buffer from zero. -/
theorem hoistedScalar_resolves (h : Mirrors base ρ N.loops out st μ) (e : Expr V) (t : DType) :
    let tmp := (st.temp out t).1
    let zeros := makeZeroOffsets tmp.buffer.shape.length
    let a : Access := ⟨tmp.buffer, zeros⟩
    Resolves base ρ N.loops out
      (some a, (st.temp out t).2.hoist
        [.brc (.scalar e) ⟨tmp.buffer, zeros, tmp.buffer.shape⟩] a e (st.temp out t).2.next)
      (some ⟨.zeros, true⟩, (μ.temp outOperand).2.call [⟨.zeros, true⟩]) := by
  intro tmp zeros a
  obtain ⟨htmp, hm⟩ := h.temp inBounds_out t
  have ha : Describes base ρ N.loops out ⟨.zeros, true⟩ a.buffer a.indices :=
    ⟨htmp.temp, inBounds_zeros tmp.buffer⟩
  refine ⟨.some ha, hm.next, hm.last, ?_⟩
  have hall : DescribesAll base ρ N.loops out
      [⟨tmp.buffer, zeros, tmp.buffer.shape⟩] [⟨.zeros, true⟩] := .cons ha .nil
  rw [Emitter.hoist, Trace.call, List.forall_mem_append, ← hm.inBounds, ← hall.inBounds,
    tempsInBounds_append, tempsInBounds_append, tempsInBounds_append, tempsInBounds_singleton]
  exact and_right_comm

theorem resolveTernaryOperand_resolves {e : Expr V} {t : DType}
    {resolve : Emitter V → Option Access × Emitter V} {origin : Trace → Option Operand × Trace}
    (h : Mirrors base ρ N.loops out st μ)
    (hresolve : Resolves base ρ N.loops out (resolve st) (origin μ)) :
    Resolves base ρ N.loops out (resolveTernaryOperand N.loops out e resolve t st)
      (resolveTernaryOrigin N.loops e origin μ) := by
  rw [resolveTernaryOperand, resolveTernaryOrigin]
  split
  · obtain ⟨htmp, hm⟩ := h.temp inBounds_out t
    exact ⟨.some htmp, hm.stmt htmp.all⟩
  · revert hresolve
    generalize resolve st = r
    generalize origin μ = q
    rintro ⟨hop, hm⟩
    obtain ⟨ra, st₁⟩ := r
    obtain ⟨rp, μ₁⟩ := q
    cases hop with
    | some ha => exact ⟨.some ha, hm⟩
    | none =>
      simp only
      split
      · exact hm.unresolved
      · exact hoistedScalar_resolves hm e t

theorem handleTernary_decomposes (hout : out.buffer.id < base) {c t f : Expr V}
    {resolveC resolveT resolveF : Emitter V → Option Access × Emitter V}
    {originC originT originF : Trace → Option Operand × Trace}
    (h : Mirrors base ρ N.loops out st μ)
    (hC : Resolves base ρ N.loops out (resolveC st) (originC μ))
    (hT : ∀ (st₁ : Emitter V) (μ₁ : Trace), Mirrors base ρ N.loops out st₁ μ₁ →
      Resolves base ρ N.loops out (resolveT st₁) (originT μ₁))
    (hF : ∀ (st₁ : Emitter V) (μ₁ : Trace), Mirrors base ρ N.loops out st₁ μ₁ →
      Resolves base ρ N.loops out (resolveF st₁) (originF μ₁)) :
    Decomposes base ρ N.loops out (handleTernary N.loops out c t f resolveC resolveT resolveF st)
      (traceTernary N.loops c t f originC originT originF μ) := by
  have hc := resolveTernaryOperand_resolves (e := c) (t := .bool) h hC
  rw [handleTernary, traceTernary]
  revert hc
  generalize resolveTernaryOperand N.loops out c resolveC .bool st = r₁
  generalize resolveTernaryOrigin N.loops c originC μ = q₁
  obtain ⟨rc, st₁⟩ := r₁
  obtain ⟨pc, μ₁⟩ := q₁
  rintro ⟨hopc, hm₁⟩
  have ht := resolveTernaryOperand_resolves (e := t) (t := out.buffer.dtype) hm₁ (hT st₁ μ₁ hm₁)
  simp only
  revert ht
  generalize resolveTernaryOperand N.loops out t resolveT out.buffer.dtype st₁ = r₂
  generalize resolveTernaryOrigin N.loops t originT μ₁ = q₂
  obtain ⟨rt, st₂⟩ := r₂
  obtain ⟨pt, μ₂⟩ := q₂
  rintro ⟨hopt, hm₂⟩
  have hf := resolveTernaryOperand_resolves (e := f) (t := out.buffer.dtype) hm₂ (hF st₂ μ₂ hm₂)
  simp only
  revert hf
  generalize resolveTernaryOperand N.loops out f resolveF out.buffer.dtype st₂ = r₃
  generalize resolveTernaryOrigin N.loops f originF μ₂ = q₃
  obtain ⟨rf, st₃⟩ := r₃
  obtain ⟨pf, μ₃⟩ := q₃
  rintro ⟨hopf, hm₃⟩
  have hdst : Describes base ρ N.loops out outOperand out.buffer out.indices :=
    describes_out hout
  cases hopc with
  | none => exact ⟨rfl, hm₃⟩
  | some hc =>
    cases hopt with
    | none => exact ⟨rfl, hm₃⟩
    | some ht =>
      cases hopf with
      | none => exact ⟨rfl, hm₃⟩
      | some hf =>
        exact ⟨rfl, hm₃.stmt (((hc.all.append ht.all).append hf.all).append hdst.all)⟩

/-- Decomposing an expression accesses the temporaries its trace says. -/
theorem decompose_decomposes (hρ : InLoops N.loops ρ)
    (hidx : ∀ e ∈ out.indices, e.isVar = true ∨ e.isConst = true) (hout : out.buffer.id < base)
    {e : Expr V} (hloads : ∀ l ∈ e.loads, l.1.id < base) {depth : ℕ}
    (h : Mirrors base ρ N.loops out st μ) :
    Decomposes base ρ N.loops out (decompose N.loops S out depth e st)
      (trace N.loops S out depth e μ) := by
  have hdst : Describes base ρ N.loops out outOperand out.buffer out.indices :=
    describes_out hout
  induction e generalizing depth st μ with
  | imm x t => exact ⟨rfl, h.stmt hdst.all⟩
  | load buf indices =>
    have hbuf : buf.id < base := hloads (buf, indices) List.mem_cons_self
    have hload : Describes base ρ N.loops out ⟨.load buf indices, false⟩ buf indices :=
      ⟨iff_of_false (Nat.not_le_of_lt hbuf) nofun, Iff.rfl⟩
    exact ⟨rfl, h.stmt (.cons hload hdst.all)⟩
  | var x =>
    have hx : Resolves base ρ N.loops out
        (resolveWith N.loops S out (.var x) (fun st => (false, st)) st)
        (resolveOrigin (V := V) N.loops S out (.var x) (fun μ => (false, μ)) μ) :=
      resolveWith_resolves hρ hidx hloads ⟨rfl, h⟩ h
    rw [decompose, trace]
    revert hx
    generalize resolveWith N.loops S out (.var x) (fun st => (false, st)) st = r
    generalize resolveOrigin (V := V) N.loops S out (.var x) (fun μ => (false, μ)) μ = q
    obtain ⟨ra, st₁⟩ := r
    obtain ⟨pa, μ₁⟩ := q
    rintro ⟨hop, hm⟩
    cases hop with
    | none => exact ⟨rfl, hm⟩
    | some hsrc => exact ⟨rfl, hm.stmt (hsrc.all.append hdst.all)⟩
  | unary op a ih =>
    have hla : ∀ l ∈ a.loads, l.1.id < base := hloads
    rw [decompose, trace]
    exact handleUnary_decomposes hout h (resolveWith_resolves hρ hidx hla (ih hla h) h)
  | binary op a b iha ihb =>
    simp only [Expr.loads, List.mem_append] at hloads
    have hla : ∀ l ∈ a.loads, l.1.id < base := fun l hl => hloads l (.inl hl)
    have hlb : ∀ l ∈ b.loads, l.1.id < base := fun l hl => hloads l (.inr hl)
    rw [decompose, trace]
    exact handleBinary_decomposes hout h (resolveWith_resolves hρ hidx hla (iha hla h) h)
      fun st₁ μ₁ h₁ => resolveWith_resolves hρ hidx hlb (ihb hlb h₁) h₁
  | ifThenElse c t f ihc iht ihf =>
    simp only [Expr.loads, List.mem_append] at hloads
    have hlc : ∀ l ∈ c.loads, l.1.id < base := fun l hl => hloads l (.inl (.inl hl))
    have hlt : ∀ l ∈ t.loads, l.1.id < base := fun l hl => hloads l (.inl (.inr hl))
    have hlf : ∀ l ∈ f.loads, l.1.id < base := fun l hl => hloads l (.inr hl)
    rw [decompose, trace]
    exact handleTernary_decomposes hout h (resolveWith_resolves hρ hidx hlc (ihc hlc h) h)
      (fun st₁ μ₁ h₁ => resolveWith_resolves hρ hidx hlt (iht hlt h₁) h₁)
      fun st₁ μ₁ h₁ => resolveWith_resolves hρ hidx hlf (ihf hlf h₁) h₁
  | other t xs ls g => exact ⟨rfl, h⟩

end Decomposition

/-! ## The nest of a store -/

section Store

variable {base : ℕ} {ρ : Var → ℤ} {N : Stack} {S : Simplifier}

theorem calls_prepend (cs : List (TileCall V)) (s : Stmt V) :
    (Stmt.prepend cs s).calls = cs ++ s.calls := by
  induction cs with
  | nil => rfl
  | cons c cs ih => exact congrArg (c :: ·) ih

theorem calls_nest (loops : List Loop) (s : Stmt V) : (nest loops s).calls = s.calls := by
  induction loops with
  | nil => rfl
  | cons l loops ih => exact ih

/-- The calls `LoopDecompose` puts in place of a nest of parallel loops around a
store. -/
def nestCalls (S : Simplifier) (loops : List Loop) (buf : Buffer) (indices : List Index)
    (e : Expr V) (st : Emitter V) : List (TileCall V) :=
  (visitStmt S [] (nest loops (.store buf indices e)) st).1.calls

/-- In one iteration, the accesses to temporaries are in bounds when the accesses
they come from are. -/
theorem nestCalls_inBounds_iff (hρ : InLoops N.loops ρ) (hne : N.loops ≠ []) {buf : Buffer}
    (hbuf : buf.id < base) {indices : List Index} {e : Expr V}
    (hloads : ∀ l ∈ e.loads, l.1.id < base) {st : Emitter V} (hbase : base ≤ st.next)
    (hhoisted : st.hoisted = [])
    (hv : (vectorizeSingleStatement S N.loops buf indices e st).1.isSome = true) :
    TempsInBounds ρ base (nestCalls S N.loops buf indices e st) ↔
      ∀ o ∈ tempOrigins N.loops S ⟨buf, indices⟩ e, o.Holds N.loops ⟨buf, indices⟩ ρ := by
  obtain ⟨r, st', hr⟩ : ∃ r st', vectorizeSingleStatement S N.loops buf indices e st = (r, st') :=
    ⟨_, _, rfl⟩
  rw [hr] at hv
  obtain ⟨calls, rfl⟩ := Option.isSome_iff_exists.mp hv
  rw [nestCalls, visitStmt_nest hne hr, calls_prepend, calls_nest, calls_prepend, Stmt.calls,
    List.append_nil]
  rw [vectorizeSingleStatement] at hr
  split at hr
  · rename_i hidx
    split at hr
    · have hidx' : ∀ i ∈ indices, i.isVar = true ∨ i.isConst = true := by
        simpa [List.all_eq_true, Bool.or_eq_true] using hidx
      have hstart : Mirrors base ρ N.loops ⟨buf, indices⟩ { st with stmts := [], tmpBufs := [] }
          ⟨none, []⟩ := by
        refine ⟨hbase, .none, ?_⟩
        simp [hhoisted, TempsInBounds]
      obtain ⟨-, hm⟩ := decompose_decomposes (S := S) hρ hidx' hbuf hloads hstart
      split at hr
      · rename_i st₁ hd
        obtain ⟨rfl, rfl⟩ := by simpa only [Prod.mk.injEq, Option.some.injEq] using hr
        have hin := hm.inBounds
        rw [hd] at hin
        exact hin
      · cases hr
    · cases hr
  · cases hr

theorem Iteration.inLoops {A : Alg V} {loops : List Loop} {env env' : Env V}
    (h : Iteration A loops env env') (hmin : ∀ l ∈ loops, l.min = .const 0) :
    InLoops loops (A.ints env') := by
  intro l hl
  have hlo := h.lower l hl
  have hup := h.upper l hl
  rw [hmin l hl, Index.eval] at hlo hup
  exact ⟨hlo, by omega⟩

/-- Every access to a temporary is in bounds in every iteration exactly when every
access it comes from is: a load whose shape and indices a temporary takes over, the
store for a scalar of a select, and, when a loop variable or a broadcast load is
materialized, zero for every output index that is no loop variable. -/
theorem nestCalls_temps_inBounds_iff (A : Alg V) (env : Env V) (S : Simplifier) (N : Stack)
    (hne : N.loops ≠ []) (hmin : ∀ l ∈ N.loops, l.min = .const 0) {buf : Buffer}
    {indices : List Index} {e : Expr V} {st : Emitter V} (hbuf : buf.id < st.next)
    (hloads : ∀ l ∈ e.loads, l.1.id < st.next) (hhoisted : st.hoisted = [])
    (hv : (vectorizeSingleStatement S N.loops buf indices e st).1.isSome = true) :
    (∀ env', Iteration A N.loops env env' →
        TempsInBounds (A.ints env') st.next (nestCalls S N.loops buf indices e st)) ↔
      ∀ env', Iteration A N.loops env env' →
        ∀ o ∈ tempOrigins N.loops S ⟨buf, indices⟩ e,
          o.Holds N.loops ⟨buf, indices⟩ (A.ints env') :=
  forall₂_congr fun _ hit =>
    nestCalls_inBounds_iff (hit.inLoops hmin) hne hbuf hloads le_rfl hhoisted hv

/-- `exp(A[i]) + i`. -/
def expPlusLane : Expr ℤ := .binary .add (.unary .exp (rowRead 1)) (.var ⟨0, .int32⟩)

/-- `out[i] = exp(A[i]) + i` stays inside its two temporaries. -/
theorem expPlusLane_inBounds :
    (vectorizeSingleStatement .none rowNest.loops (rowAccess 0).buffer (rowAccess 0).indices
        expPlusLane freshEmitter).1.isSome = true ∧
      ∀ env', Iteration intAlg rowNest.loops (fun _ => 0) env' →
        TempsInBounds (intAlg.ints env') 2
          (nestCalls .none rowNest.loops (rowAccess 0).buffer (rowAccess 0).indices expPlusLane
            freshEmitter) := by
  refine ⟨rfl, (nestCalls_temps_inBounds_iff intAlg (fun _ => 0) .none rowNest.toStack (by decide)
    rowNest_min (by decide) (by decide) rfl rfl).mpr fun env' hit o ho => ?_⟩
  have horigins : tempOrigins rowNest.loops .none (rowAccess 0) expPlusLane =
      [.load (rowAccess 1).buffer (rowAccess 1).indices,
        .load (rowAccess 1).buffer (rowAccess 1).indices, .aligned] := rfl
  have hload : Origin.Holds rowNest.loops (rowAccess 0) (intAlg.ints env')
      (.load (rowAccess 1).buffer (rowAccess 1).indices) :=
    .cons (hit.inLoops rowNest_min _ List.mem_cons_self) .nil
  have haligned : Origin.Holds rowNest.loops (rowAccess 0) (intAlg.ints env') .aligned :=
    List.forall_mem_singleton.mpr nofun
  change o ∈ tempOrigins rowNest.loops .none (rowAccess 0) expPlusLane at ho
  rw [horigins] at ho
  simp only [List.mem_cons, List.not_mem_nil, or_false] at ho
  rcases ho with rfl | rfl | rfl
  · exact hload
  · exact hload
  · exact haligned

/-- Row `1` of a buffer of shape `[2, 2]`, at `i`. -/
def secondRow : Access := ⟨⟨0, [.const 2, .const 2], .int32⟩, [.const 1, .var ⟨0, .int32⟩]⟩

/-- `out[1, i] = i` reads an arange buffer of shape `[1, 2]` at `[1, i]`. -/
theorem secondRow_outOfBounds :
    (vectorizeSingleStatement .none rowNest.loops secondRow.buffer secondRow.indices
        (.var ⟨0, .int32⟩) freshEmitter).1.isSome = true ∧
      Iteration intAlg rowNest.loops (fun _ => 0) (fun _ => 0) ∧
      InBounds (intAlg.ints fun _ => 0) secondRow.buffer secondRow.indices ∧
      ¬ TempsInBounds (intAlg.ints fun _ => 0) 2
        (nestCalls .none rowNest.loops secondRow.buffer secondRow.indices (.var ⟨0, .int32⟩)
          freshEmitter) := by
  refine ⟨rfl, ⟨fun _ _ => rfl, ?_, ?_, ?_⟩, by decide, by decide⟩
  · exact fun l _ => rfl
  · exact List.forall_mem_singleton.mpr le_rfl
  · exact List.forall_mem_singleton.mpr (by decide)

end Store

end TileLangNpuir.LoopVectorize
