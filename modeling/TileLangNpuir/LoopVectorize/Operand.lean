import TileLangNpuir.LoopVectorize.Emission

/-!
# Resolving operands

`resolveOperand_spec`: every good operand below the root of an expression is
resolved as `OperandSpec` says. The leaves come first, then one lemma for each
handler, then the induction over the operand.
-/

namespace TileLangNpuir.LoopVectorize

open RowMajor

variable {V : Type} {A : Alg V} {N : Stack} {S : Simplifier} {out : Access} {env : Env V}
  {base : ℕ} {st : Emitter V}

/-! ## Leaves -/

theorem any_var_eq_isSome_loopOf (loops : List Loop) (x : Var) :
    (loops.any fun l => decide (l.var = x)) = (loopOf loops x).isSome := by
  rw [loopOf, List.findIdx?_isSome]

theorem resolves_of_scalarLike {e : Expr V} (h : isLoopInvariantScalarLike N.loops e = true) :
    e.resolves N.loops S out = false := by
  cases e with
  | imm x t => rfl
  | var x =>
    rw [isLoopInvariantScalarLike, any_var_eq_isSome_loopOf] at h
    simpa [Expr.resolves] using h
  | load buf indices =>
    have hnone : containsAnyLoopVar N.loops (indices.flatMap Index.vars) = false := by
      simpa [isLoopInvariantScalarLike] using h
    rw [Expr.resolves, hnone, Bool.false_and, Bool.false_and]
  | _ => cases h

/-- An operand that is not resolved leaves no trace. -/
theorem operandSpec_none {e : Expr V} (h : e.resolves N.loops S out = false) :
    OperandSpec A env N.loops S out base e st none st :=
  ⟨Grows.refl st, by rw [h]; rfl, fun a ha => nomatch ha⟩

/-- The emitted copy, reshape and broadcast fill new buffers, one after the other. -/
theorem emitReshapeAndBroadcast_hoistOk {loops : List Loop} {buf : Buffer} {indices : List Index} {next : ℕ}
    (src : ℕ → Prop) (hbuf : buf.id < base) (hsrc : src buf.id) {cs : List (TileCall V)}
    {a : Access} {n : ℕ}
    (hr : emitReshapeAndBroadcast loops buf indices out next = (cs, a, n)) :
    next ≤ n ∧ a.buffer.id < n ∧ cs.Pairwise (fun h h' => h.dst.buf.id < h'.dst.buf.id) ∧
      ∀ c ∈ cs, HoistOk base src next n c := by
  rw [emitReshapeAndBroadcast] at hr
  split at hr
  · obtain ⟨rfl, rfl, rfl⟩ := by simpa only [Prod.mk.injEq] using hr
    refine ⟨by omega, by simp, by simp [TileCall.dst, regionND], fun c hc => ?_⟩
    simp only [List.mem_cons, List.not_mem_nil, or_false] at hc
    rcases hc with rfl | rfl
    · refine ⟨by simp [TileCall.dst, regionND], by simp [TileCall.dst, regionND], fun b hb => ?_⟩
      obtain rfl := List.mem_singleton.mp hb
      exact .inl ⟨hbuf, hsrc⟩
    · refine ⟨by simp [TileCall.dst, regionND], by simp [TileCall.dst, regionND], fun b hb => ?_⟩
      obtain rfl := List.mem_singleton.mp hb
      exact .inr (by simp [TileCall.dst, regionND])
  · obtain ⟨rfl, rfl, rfl⟩ := by simpa only [Prod.mk.injEq] using hr
    refine ⟨by omega, by simp, by simp [TileCall.dst, regionND], fun c hc => ?_⟩
    simp only [List.mem_cons, List.not_mem_nil, or_false] at hc
    rcases hc with rfl | rfl | rfl
    · refine ⟨by simp [TileCall.dst, regionND], by simp [TileCall.dst, regionND], fun b hb => ?_⟩
      obtain rfl := List.mem_singleton.mp hb
      exact .inl ⟨hbuf, hsrc⟩
    · refine ⟨by simp [TileCall.dst, regionND], by simp [TileCall.dst, regionND], fun b hb => ?_⟩
      obtain rfl := List.mem_singleton.mp hb
      exact .inr (by simp [TileCall.dst, regionND])
    · refine ⟨by simp [TileCall.dst, regionND], by simp [TileCall.dst, regionND], fun b hb => ?_⟩
      obtain rfl := List.mem_singleton.mp hb
      exact .inr (by simp [TileCall.dst, regionND])

/-- A buffer created now is untouched by the statements emitted so far. -/
theorem execAll_of_next_le {env' : Env V} {m : Mem V} (hinv : st.Inv base) {b : ℕ}
    (hb : st.next ≤ b) : execAll A env' st.stmts m b = m b := by
  refine execAll_of_forall_ne fun c hc => ?_
  have := (hinv.stmts c hc).2
  omega

theorem execAll_of_lt_base {env' : Env V} {m : Mem V} (hinv : st.Inv base) {b : ℕ}
    (hb : b < base) : execAll A env' st.stmts m b = m b := by
  refine execAll_of_forall_ne fun c hc => ?_
  have := (hinv.stmts c hc).1
  omega

/-- A loop variable used as a value. -/
theorem operandSpec_var {x : Var} {j : ℕ} {l : Loop} (hj : loopOf N.loops x = some j)
    (hl : N.loops[j]? = some l) (hx : l.var = x) (hinv : st.Inv base)
    (hout : ∀ e ∈ out.indices, e.isVar = true ∨ e.isConst = true)
    (hex : ArangeExact A env N.loops out j) {c : TileCall V} {a : Access}
    (hc : emitLoopVarArange N.loops j out st.next = (c, a)) :
    OperandSpec A env N.loops S out base (.var x) st (some a)
      ((st.hoist [c] a (.var x) (st.next + 1)).pushTmp a) := by
  have hca := hc
  rw [emitLoopVarArange] at hca
  obtain ⟨rfl, rfl⟩ := Prod.mk.inj hca
  refine ⟨grows_hoisted (Nat.le_succ _) rfl rfl (List.pairwise_singleton _ _) fun c' hc' => ?_,
    ?_, fun a' ha' => ?_⟩
  · obtain rfl := List.mem_singleton.mp hc'
    exact ⟨le_rfl, Nat.lt_succ_self _, fun b hb => absurd hb List.not_mem_nil⟩
  · simp [Expr.resolves, hj]
  · obtain rfl := Option.some.inj ha'
    refine ⟨fun b hb => ?_, fun env' m p hit hstable => ?_⟩
    · obtain rfl := List.mem_singleton.mp hb
      exact Nat.lt_succ_self _
    · have hread := arange_value hl hout hex hit hc
        (hstable _ (List.mem_append_right _ List.mem_cons_self))
      rw [read_single, Alg.load]
      refine Eq.trans (congrFun (execAll_of_next_le hinv le_rfl) _) ?_
      rw [← hx]
      exact hread

theorem evals_simplify {env' : Env V} (indices : List Index) :
    A.evals env' (indices.map S.simplify) = A.evals env' indices := by
  simp only [Alg.evals, List.map_map]
  exact List.map_congr_left fun e _ => S.eval_simplify _ e

/-- The indices of a load that is read are simplified and supported. -/
theorem supported_of_mapM {loops : List Loop} {indices indices' : List Index}
    (h : indices.mapM (isSupportedVectorLoadIndex loops S) = some indices') :
    indices' = indices.map S.simplify ∧ ∀ e ∈ indices', IsSupported loops e := by
  induction indices generalizing indices' with
  | nil =>
    obtain rfl : indices' = [] := by simpa [eq_comm] using h
    exact ⟨rfl, by simp⟩
  | cons e es ih =>
    rw [List.mapM_cons] at h
    obtain ⟨e', he, h⟩ := Option.bind_eq_some_iff.mp h
    obtain ⟨es', hes, h⟩ := Option.bind_eq_some_iff.mp h
    obtain rfl := Option.some.inj h
    obtain ⟨rfl, hsup⟩ := isSupportedVectorLoadIndex_spec he
    obtain ⟨rfl, hsup'⟩ := ih hes
    refine ⟨rfl, fun e' he' => ?_⟩
    rcases List.mem_cons.mp he' with rfl | he'
    · exact hsup
    · exact hsup' e' he'

/-- A load, read in place or materialized before the nest. -/
theorem operandSpec_load {buf : Buffer} {indices : List Index}
    {decomp : Emitter V → Bool × Emitter V} (hinv : st.Inv base) (hbuf : buf.id < base)
    (hout : ∀ e ∈ out.indices, e.isVar = true ∨ e.isConst = true)
    (hgood : Good A env N.loops S out (.load buf indices)) :
    OperandSpec A env N.loops S out base (.load buf indices) st
      (resolveWith N.loops S out (.load buf indices) decomp st).1
      (resolveWith N.loops S out (.load buf indices) decomp st).2 := by
  obtain ⟨res, st', hr⟩ : ∃ res st',
      resolveWith N.loops S out (.load buf indices) decomp st = (res, st') := ⟨_, _, rfl⟩
  rw [hr]
  rw [resolveWith] at hr
  split at hr
  case isTrue hscalar =>
    obtain ⟨rfl, rfl⟩ := Prod.mk.inj hr
    exact operandSpec_none (resolves_of_scalarLike hscalar)
  case isFalse hscalar =>
    have hany : containsAnyLoopVar N.loops (indices.flatMap Index.vars) = true := by
      simpa [isLoopInvariantScalarLike] using hscalar
    simp only at hr
    split at hr
    case isFalse hvalid =>
      obtain ⟨rfl, rfl⟩ := Prod.mk.inj hr
      exact operandSpec_none (by simp [Expr.resolves, hvalid])
    case isTrue hvalid =>
      split at hr
      case h_2 hmap =>
        obtain ⟨rfl, rfl⟩ := Prod.mk.inj hr
        exact operandSpec_none (by simp [Expr.resolves, hmap])
      case h_1 indices' hmap =>
        have hresolves : (Expr.load (V := V) buf indices).resolves N.loops S out = true := by
          simp [Expr.resolves, hany, hvalid, hmap]
        obtain ⟨rfl, hsup⟩ := supported_of_mapM hmap
        have hbase := hinv.base_le
        split at hr
        case isTrue hneeds =>
          obtain ⟨hex, hne⟩ := hgood _ hmap hany hneeds
          obtain ⟨cs, a, n, hc⟩ :
              ∃ cs a n, emitReshapeAndBroadcast (V := V) N.loops buf (indices.map S.simplify) out st.next =
                (cs, a, n) := ⟨_, _, _, rfl⟩
          rw [hc] at hr
          obtain ⟨rfl, rfl⟩ := Prod.mk.inj hr
          obtain ⟨hn, han, hpair, hok⟩ :=
            emitReshapeAndBroadcast_hoistOk (· ≠ out.buffer.id) hbuf hne hc
          refine ⟨grows_hoisted hn rfl rfl hpair hok, hresolves.symm, fun a' ha' => ?_⟩
          obtain rfl := Option.some.inj ha'
          refine ⟨fun b hb => ?_, fun env' m p hit hstable => ?_⟩
          · obtain rfl := List.mem_singleton.mp hb
            exact han
          · rw [read_single, Alg.load]
            refine Eq.trans (congrFun (execAll_of_next_le hinv ?_) _) ?_
            · exact Nat.le_of_lt (emitted_id _ hc)
            · exact broadcast_value (lt_of_lt_of_le hbuf hbase) hout hsup
                (evals_simplify indices) hex hit hc
                fun c hcm => hstable c (List.mem_append_right _ hcm)
        case isFalse =>
          obtain ⟨rfl, rfl⟩ := Prod.mk.inj hr
          refine ⟨Grows.refl st, hresolves.symm, fun a' ha' => ?_⟩
          obtain rfl := Option.some.inj ha'
          refine ⟨fun b hb => ?_, fun env' m p hit hstable => ?_⟩
          · obtain rfl := List.mem_singleton.mp hb
            exact lt_of_lt_of_le hbuf hbase
          · rw [read_single, Alg.load, evals_simplify]
            exact congrFun (execAll_of_lt_base hinv hbuf) _

/-! ## Handlers -/

/-- A call that, wherever it puts its result, computes the expression after the
statements emitted so far. -/
structure FinalCall (A : Alg V) (env : Env V) (loops : List Loop) (st : Emitter V)
    (call : Region → TileCall V) (e : Expr V) : Prop where
  dst : ∀ r, (call r).dst = r
  value : ∀ env' m p r, Iteration A loops env env' → (∀ h ∈ st.hoisted, Stable A env m h) →
    (call r).value A env' (execAll A env' st.stmts m) p = e.eval A env' m

/-- What a handler does at a depth: it emits temporaries and then, if it succeeds,
one call for the expression itself. -/
def HandlerSpec (A : Alg V) (env : Env V) (loops : List Loop) (out : Access) (base depth : ℕ)
    (e : Expr V) (resolved : Bool) (st : Emitter V) (r : Bool × Emitter V) : Prop :=
  ∃ st₁, Grows base (· ≠ out.buffer.id) st st₁ ∧ r.1 = resolved ∧
    (r = (false, st₁) ∨ ∃ call ref t, FinalCall A env loops st₁ call e ∧
      r = (true, (resultAccess depth out ref t st₁).2.stmt
        (call (buildRegionCall (resultAccess depth out ref t st₁).1))))

theorem HandlerSpec.self {e : Expr V} {depth : ℕ} {resolved : Bool} {r : Bool × Emitter V}
    (h : HandlerSpec A env N.loops out base depth e resolved st r) :
    HandlerSpec A env N.loops out base depth e r.1 st r := by
  obtain ⟨st₁, hgrows, -, hr⟩ := h
  exact ⟨st₁, hgrows, rfl, hr⟩

/-- Below the root, a handled expression is an operand. -/
theorem operandSpec_of_handler {e : Expr V} {decomp : Emitter V → Bool × Emitter V} {depth : ℕ}
    (hdepth : 1 < depth) (hscalar : isLoopInvariantScalarLike N.loops e = false)
    (hvar : ∀ x, e ≠ .var x) (hload : ∀ b is, e ≠ .load b is)
    (h : HandlerSpec A env N.loops out base depth e (e.resolves N.loops S out) st (decomp st)) :
    OperandSpec A env N.loops S out base e st (resolveWith N.loops S out e decomp st).1
      (resolveWith N.loops S out e decomp st).2 := by
  obtain ⟨st₁, hgrows, hres, hr⟩ := h
  have hunfold : ∀ b st', decomp st = (b, st') → resolveWith N.loops S out e decomp st =
      (if b then st'.tmpBufs.getLast? else none, st') := by
    intro b st' hb
    unfold resolveWith
    rw [if_neg (by simp [hscalar])]
    split
    · exact absurd rfl (hvar _)
    · exact absurd rfl (hload _ _)
    · rw [hb]
      cases b with
      | true => rfl
      | false => rfl
  rcases hr with hr | ⟨call, ref, t, hfinal, hr⟩
  · rw [hr] at hres
    rw [hunfold _ _ hr]
    exact ⟨hgrows, hres, by rintro _ ⟨⟩⟩
  · rw [hr] at hres
    rw [hunfold _ _ hr]
    simp only [resultAccess, if_pos hdepth]
    refine ⟨hgrows.trans (grows_temp_stmt (hfinal.dst _)), ?_, fun a ha => ?_⟩
    · rw [temp_stmt_getLast?]
      exact hres
    · rw [temp_stmt_getLast?] at ha
      obtain rfl := Option.some.inj ha
      exact argSpec_temp (hfinal.dst _) fun env' m p => hfinal.value env' m p _

theorem handleUnary_spec {op : UnaryOp} {a : Expr V} {depth : ℕ}
    {resolve : Emitter V → Option Access × Emitter V}
    (hresolve : rankReducingCast out op a = false →
      OperandSpec A env N.loops S out base a st (resolve st).1 (resolve st).2) :
    HandlerSpec A env N.loops out base depth (.unary op a)
      ((Expr.unary op a).resolves N.loops S out) st (handleUnary out depth op a resolve st) := by
  rw [handleUnary, Expr.resolves]
  by_cases hrank : rankReducingCast out op a = true
  · rw [if_pos hrank, hrank]
    exact ⟨st, Grows.refl st, rfl, .inl rfl⟩
  · have hrank' : rankReducingCast out op a = false := by simpa using hrank
    obtain ⟨res, st₁, hr⟩ : ∃ res st₁, resolve st = (res, st₁) := ⟨_, _, rfl⟩
    have hspec := hresolve hrank'
    rw [hr] at hspec
    rw [if_neg hrank, hrank', Bool.not_false, Bool.true_and, ← hspec.isSome, hr]
    cases res with
    | none => exact ⟨st₁, hspec.grows, rfl, .inl rfl⟩
    | some src =>
      refine ⟨st₁, hspec.grows, rfl, .inr ⟨fun r => .unary op (.region (buildRegionCall src)) r,
        src, (Expr.unary op a).dtype, ⟨fun _ => rfl, fun env' m p r hit hstable => ?_⟩, rfl⟩⟩
      rw [TileCall.value, (hspec.value src rfl).read env' m p hit hstable, Expr.eval]

/-- Swapping the operands of any operator but `>` and `≥` keeps its value. -/
theorem binary_mirrored (A : Alg V) {op : BinaryOp} (hswap : swapsOperands op = true)
    (hgt : op ≠ .gt) (hge : op ≠ .ge) (x y : V) :
    A.binary (mirrored op) y x = A.binary op x y := by
  cases op with
  | add => exact A.add_comm y x
  | mul => exact A.mul_comm y x
  | min => exact A.min_comm y x
  | max => exact A.max_comm y x
  | eq => exact A.eq_comm y x
  | ne => exact A.ne_comm y x
  | lt => exact (A.lt_swap x y).symm
  | le => exact (A.le_swap x y).symm
  | gt => exact absurd rfl hgt
  | ge => exact absurd rfl hge
  | sub | div | floorDiv | floorMod => cases hswap

variable (A N out env) in
/-- A scalar operand, broadcast or not, has its value. -/
theorem scalarArg_spec {e : Expr V} (ref : Access) (t : DType) (hinv : st.Inv base)
    (hloads : ∀ l ∈ e.loads, l.1.id < base) :
    Grows base (· ≠ out.buffer.id) st (scalarArg e ref t st).2 ∧
      ArgSpec A env N.loops (scalarArg e ref t st).2 (scalarArg e ref t st).1 e := by
  have hscalar : ArgSpec A env N.loops st (.scalar e) e := argSpec_scalar hinv hloads
  rw [scalarArg]
  split
  · exact ⟨Grows.refl st, hscalar⟩
  · exact ⟨grows_temp_stmt rfl, argSpec_temp rfl fun env' m p => hscalar.read env' m p⟩

/-- The operands of the emitted call: they are new temporaries at most, and the
call computes the operator. -/
theorem binaryArgs_spec {op : BinaryOp} {a b : Expr V} {ra rb : Option Access} {t : DType}
    (hinv : st.Inv base) (hla : ∀ l ∈ a.loads, l.1.id < base) (hlb : ∀ l ∈ b.loads, l.1.id < base)
    (ha : ∀ x, ra = some x → ArgSpec A env N.loops st (.region (buildRegionCall x)) a)
    (hb : ∀ y, rb = some y → ArgSpec A env N.loops st (.region (buildRegionCall y)) b)
    (hsome : (ra.isSome || rb.isSome) = true)
    (hcmp : op = .gt ∨ op = .ge → rb.isSome = true → ra.isSome = true) :
    ∃ op₂ argA argB ref st₁, binaryArgs op a b ra rb t st = some (op₂, argA, argB, ref, st₁) ∧
      Grows base (· ≠ out.buffer.id) st st₁ ∧
      FinalCall A env N.loops st₁ (fun r => .binary op₂ argA argB r) (.binary op a b) := by
  have hfinal : ∀ {st₁ : Emitter V} {argA argB : Arg V},
      ArgSpec A env N.loops st₁ argA a → ArgSpec A env N.loops st₁ argB b →
      FinalCall A env N.loops st₁ (fun r => .binary op argA argB r) (.binary op a b) := by
    refine fun hA hB => ⟨fun _ => rfl, fun env' m p r hit hstable => ?_⟩
    rw [TileCall.value, hA.read env' m p hit hstable, hB.read env' m p hit hstable, Expr.eval]
  rcases ra with _ | x <;> rcases rb with _ | y
  · cases hsome
  · by_cases hswap : swapsOperands op = true
    · refine ⟨_, _, _, _, st, by rw [binaryArgs, if_pos hswap], Grows.refl st, fun _ => rfl,
        fun env' m p r hit hstable => ?_⟩
      have hgt : op ≠ .gt := fun h => Bool.noConfusion (hcmp (.inl h) rfl)
      have hge : op ≠ .ge := fun h => Bool.noConfusion (hcmp (.inr h) rfl)
      rw [TileCall.value, (hb y rfl).read env' m p hit hstable,
        (argSpec_scalar hinv hla).read env' m p hit hstable, binary_mirrored A hswap hgt hge,
        Expr.eval]
    · obtain ⟨hgrows, harg⟩ := scalarArg_spec A N out env y t hinv hla
      exact ⟨_, _, _, _, _, by rw [binaryArgs, if_neg hswap], hgrows,
        hfinal harg ((hb y rfl).grows hgrows)⟩
  · obtain ⟨hgrows, harg⟩ := scalarArg_spec A N out env x t hinv hlb
    exact ⟨_, _, _, _, _, rfl, hgrows, hfinal ((ha x rfl).grows hgrows) harg⟩
  · exact ⟨_, _, _, _, st, rfl, Grows.refl st, hfinal (ha x rfl) (hb y rfl)⟩

theorem handleBinary_spec {op : BinaryOp} {a b : Expr V} {depth : ℕ} (hinv : st.Inv base)
    (hla : ∀ l ∈ a.loads, l.1.id < base) (hlb : ∀ l ∈ b.loads, l.1.id < base)
    {resolveA resolveB : Emitter V → Option Access × Emitter V}
    (hgood : Good A env N.loops S out (.binary op a b))
    (hresolveA : Good A env N.loops S out a →
      OperandSpec A env N.loops S out base a st (resolveA st).1 (resolveA st).2)
    (hresolveB : ∀ st₁ : Emitter V, st₁.Inv base → Good A env N.loops S out b →
      OperandSpec A env N.loops S out base b st₁ (resolveB st₁).1 (resolveB st₁).2) :
    HandlerSpec A env N.loops out base depth (.binary op a b)
      ((Expr.binary op a b).resolves N.loops S out) st
      (handleBinary out depth op a b resolveA resolveB st) := by
  rw [handleBinary, Expr.resolves]
  by_cases hlower : canLowerBinaryOpToNpuir op (Expr.binary op a b).dtype = true
  · obtain ⟨hga, hgb, hops⟩ := hgood hlower
    obtain ⟨ra, st₁, hra⟩ : ∃ ra st₁, resolveA st = (ra, st₁) := ⟨_, _, rfl⟩
    obtain ⟨rb, st₂, hrb⟩ : ∃ rb st₂, resolveB st₁ = (rb, st₂) := ⟨_, _, rfl⟩
    have hspecA : OperandSpec A env N.loops S out base a st ra st₁ := by
      simpa only [hra] using hresolveA hga
    have hinv₁ := hspecA.grows.inv hinv
    have hspecB : OperandSpec A env N.loops S out base b st₁ rb st₂ := by
      simpa only [hrb] using hresolveB st₁ hinv₁ hgb
    have hinv₂ := hspecB.grows.inv hinv₁
    have hgrows := hspecA.grows.trans hspecB.grows
    simp only [← hspecA.isSome, ← hspecB.isSome] at hops
    simp only [if_pos hlower, hra, hrb]
    rw [hlower, Bool.true_and, ← hspecA.isSome, ← hspecB.isSome]
    by_cases hsome : (ra.isSome || rb.isSome) = true
    · obtain ⟨hdiv, hmod, hcmp⟩ := hops hsome
      obtain ⟨op₂, argA, argB, ref, st₃, hargs, hgrows', hfinal⟩ := binaryArgs_spec
        (t := inferBinaryComputeDType op (Expr.binary op a b).dtype ra rb [a.dtype, b.dtype])
        hinv₂ hla hlb (fun x hx => (hspecA.value x hx).grows hspecB.grows) hspecB.value hsome hcmp
      simp only [if_neg hdiv, hargs, if_neg hmod]
      exact ⟨st₃, hgrows.trans hgrows', hsome.symm, .inr ⟨_, _, _, hfinal, rfl⟩⟩
    · obtain ⟨rfl, rfl⟩ : ra = none ∧ rb = none := by simpa using hsome
      exact ⟨st₂, hgrows, rfl, .inl rfl⟩
  · rw [if_neg hlower]
    exact ⟨st, Grows.refl st, by simp [hlower], .inl rfl⟩

/-- A select takes a scalar from a temporary of its own, broadcast in the iteration
or before the nest. -/
theorem resolveTernaryOperand_spec {e : Expr V} {t : DType} (hinv : st.Inv base)
    (hloads : ∀ l ∈ e.loads, l.1.id < base) {resolve : Emitter V → Option Access × Emitter V}
    (hresolve : OperandSpec A env N.loops S out base e st (resolve st).1 (resolve st).2)
    (hhoist : e.hoistsScalar N.loops S out = true → ScalarHoistExact A env out e) :
    ResolveSpec A env N.loops out base e (e.resolvesInSelect N.loops S out) st
      (resolveTernaryOperand N.loops out e resolve t st).1
      (resolveTernaryOperand N.loops out e resolve t st).2 := by
  rw [resolveTernaryOperand, Expr.resolvesInSelect]
  by_cases hscalar : isLoopInvariantScalarLike N.loops e = true
  · rw [if_pos hscalar, hscalar]
    refine ⟨grows_temp_stmt rfl, rfl, fun a ha => ?_⟩
    obtain rfl := Option.some.inj ha
    exact argSpec_temp rfl fun env' m p => (argSpec_scalar hinv hloads).read env' m p
  · obtain ⟨res, st₁, hr⟩ : ∃ res st₁, resolve st = (res, st₁) := ⟨_, _, rfl⟩
    have hspec : OperandSpec A env N.loops S out base e st res st₁ := by
      simpa only [hr] using hresolve
    rw [if_neg hscalar, Bool.eq_false_iff.mpr hscalar, Bool.false_or, ← hspec.isSome, hr]
    cases res with
    | some a => exact ⟨hspec.grows, rfl, hspec.value⟩
    | none =>
      by_cases hvars : containsAnyLoopVar N.loops e.vars = true
      · simp only [if_pos hvars]
        exact ⟨hspec.grows, by simp [hvars], fun a ha => nomatch ha⟩
      · have hinv₁ := hspec.grows.inv hinv
        have hexact := hhoist (by
          rw [Expr.hoistsScalar, Bool.eq_false_iff.mpr hscalar, ← hspec.isSome,
            Bool.eq_false_iff.mpr hvars]
          rfl)
        simp only [if_neg hvars]
        refine ⟨hspec.grows.trans (grows_hoisted (Nat.le_succ _) rfl rfl
          (List.pairwise_singleton _ _) fun h hh => ?_), by simp [hvars], fun a ha => ?_⟩
        · obtain rfl := List.mem_singleton.mp hh
          refine ⟨le_rfl, Nat.lt_succ_self _, fun b hb => .inl ?_⟩
          obtain ⟨l, hl, rfl⟩ := List.mem_map.mp hb
          exact ⟨hloads l hl, hexact.loads l hl⟩
        · obtain rfl := Option.some.inj ha
          refine ⟨fun b hb => ?_, fun env' m p hit hstable => ?_⟩
          · obtain rfl := List.mem_singleton.mp hb
            exact Nat.lt_succ_self _
          · have henv : e.eval A env' m = e.eval A env m := by
              refine Expr.eval_congr (fun x hx => hit.outside x fun l hl hlx => ?_) fun _ _ => rfl
              exact containsAnyLoopVar_eq_false.mp (Bool.eq_false_iff.mpr hvars) l hl (hlx ▸ hx)
            rw [read_single, Alg.load]
            refine Eq.trans (congrFun (execAll_of_next_le hinv₁ le_rfl) _) ?_
            exact hoistedScalar_value hexact.shape henv
              (hstable _ (List.mem_append_right _ List.mem_cons_self))

/-- A select puts its result in the output, at any depth. -/
theorem handleTernary_spec {c t f : Expr V} (hinv : st.Inv base)
    (hloads : ∀ l ∈ (Expr.ifThenElse c t f).loads, l.1.id < base)
    {resolveC resolveT resolveF : Emitter V → Option Access × Emitter V}
    (hresolveC : OperandSpec A env N.loops S out base c st (resolveC st).1 (resolveC st).2)
    (hresolveT : ∀ st₁ : Emitter V, st₁.Inv base →
      OperandSpec A env N.loops S out base t st₁ (resolveT st₁).1 (resolveT st₁).2)
    (hresolveF : ∀ st₁ : Emitter V, st₁.Inv base →
      OperandSpec A env N.loops S out base f st₁ (resolveF st₁).1 (resolveF st₁).2)
    (hhoist : ∀ e ∈ [c, t, f], e.hoistsScalar N.loops S out = true →
      ScalarHoistExact A env out e) :
    HandlerSpec A env N.loops out base 1 (.ifThenElse c t f)
      ([c, t, f].all fun e => e.resolvesInSelect N.loops S out) st
      (handleTernary N.loops out c t f resolveC resolveT resolveF st) := by
  simp only [Expr.loads, List.mem_append] at hloads
  have hmem : c ∈ [c, t, f] ∧ t ∈ [c, t, f] ∧ f ∈ [c, t, f] := by simp
  obtain ⟨rc, st₁, hrc⟩ : ∃ rc st₁,
      resolveTernaryOperand N.loops out c resolveC .bool st = (rc, st₁) := ⟨_, _, rfl⟩
  obtain ⟨rt, st₂, hrt⟩ : ∃ rt st₂,
      resolveTernaryOperand N.loops out t resolveT out.buffer.dtype st₁ = (rt, st₂) := ⟨_, _, rfl⟩
  obtain ⟨rf, st₃, hrf⟩ : ∃ rf st₃,
      resolveTernaryOperand N.loops out f resolveF out.buffer.dtype st₂ = (rf, st₃) := ⟨_, _, rfl⟩
  have hc := resolveTernaryOperand_spec (t := .bool) hinv
    (fun l hl => hloads l (.inl (.inl hl))) hresolveC (hhoist c hmem.1)
  simp only [hrc] at hc
  have hinv₁ := hc.grows.inv hinv
  have ht := resolveTernaryOperand_spec (t := out.buffer.dtype) hinv₁
    (fun l hl => hloads l (.inl (.inr hl))) (hresolveT st₁ hinv₁) (hhoist t hmem.2.1)
  simp only [hrt] at ht
  have hinv₂ := ht.grows.inv hinv₁
  have hf := resolveTernaryOperand_spec (t := out.buffer.dtype) hinv₂
    (fun l hl => hloads l (.inr hl)) (hresolveF st₂ hinv₂) (hhoist f hmem.2.2)
  simp only [hrf] at hf
  simp only [handleTernary, hrc, hrt, hrf]
  refine ⟨st₃, (hc.grows.trans ht.grows).trans hf.grows, ?_⟩
  simp only [List.all_cons, List.all_nil, Bool.and_true, ← hc.isSome, ← ht.isSome, ← hf.isSome]
  rcases rc with _ | c' <;> rcases rt with _ | t' <;> rcases rf with _ | f'
  case some.some.some =>
    refine ⟨rfl, .inr ⟨fun r => .select (.region (buildRegionCall c')) (.region (buildRegionCall t'))
      (.region (buildRegionCall f')) r, out, out.buffer.dtype, ⟨fun _ => rfl,
      fun env' m p r hit hstable => ?_⟩, rfl⟩⟩
    rw [TileCall.value, Expr.eval,
      (((hc.value c' rfl).grows ht.grows).grows hf.grows).read env' m p hit hstable,
      ((ht.value t' rfl).grows hf.grows).read env' m p hit hstable,
      (hf.value f' rfl).read env' m p hit hstable]
  all_goals exact ⟨rfl, .inl rfl⟩

/-- Every good operand below the root is resolved as specified. -/
theorem resolveOperand_spec (hout : ∀ e ∈ out.indices, e.isVar = true ∨ e.isConst = true)
    {e : Expr V} {depth : ℕ} (hdepth : 0 < depth) (hloads : ∀ l ∈ e.loads, l.1.id < base)
    (hgood : Good A env N.loops S out e) (hinv : st.Inv base) :
    OperandSpec A env N.loops S out base e st (resolveOperand N.loops S out depth e st).1
      (resolveOperand N.loops S out depth e st).2 := by
  induction e generalizing st depth with
  | imm x t => exact operandSpec_none rfl
  | var x =>
    rw [resolveOperand, resolveWith]
    split
    case isTrue hscalar => exact operandSpec_none (resolves_of_scalarLike hscalar)
    case isFalse hscalar =>
      rcases hj : loopOf N.loops x with _ | j
      · simp only
        exact operandSpec_none (by simp [Expr.resolves, hj])
      · obtain ⟨l, hl, hx⟩ := getElem?_of_loopOf hj
        exact operandSpec_var hj hl hx hinv hout (hgood j hj) rfl
  | load buf indices =>
    rw [resolveOperand]
    exact operandSpec_load hinv (hloads (buf, indices) List.mem_cons_self) hout hgood
  | unary op a ih =>
    refine operandSpec_of_handler (Nat.succ_lt_succ hdepth) rfl (by rintro _ ⟨⟩)
      (by rintro _ _ ⟨⟩) ?_
    rw [decompose]
    exact handleUnary_spec fun hrank => ih (by omega) hloads (hgood hrank) hinv
  | binary op a b iha ihb =>
    simp only [Expr.loads, List.mem_append] at hloads
    have hla : ∀ l ∈ a.loads, l.1.id < base := fun l hl => hloads l (.inl hl)
    have hlb : ∀ l ∈ b.loads, l.1.id < base := fun l hl => hloads l (.inr hl)
    refine operandSpec_of_handler (Nat.succ_lt_succ hdepth) rfl (by rintro _ ⟨⟩)
      (by rintro _ _ ⟨⟩) ?_
    rw [decompose]
    exact handleBinary_spec hinv hla hlb hgood (fun hga => iha (by omega) hla hga hinv)
      fun st₁ hinv₁ hgb => ihb (by omega) hlb hgb hinv₁
  | ifThenElse c t f ihc iht ihf =>
    obtain ⟨hgc, hgt, hgf, hhoist, hnot⟩ := hgood
    have hcons := hloads
    simp only [Expr.loads, List.mem_append] at hcons
    refine operandSpec_of_handler (Nat.succ_lt_succ hdepth) rfl (by rintro _ ⟨⟩)
      (by rintro _ _ ⟨⟩) ?_
    have hspec : HandlerSpec A env N.loops out base 1 (.ifThenElse c t f)
        ([c, t, f].all fun e => e.resolvesInSelect N.loops S out) st
        (decompose N.loops S out depth (.ifThenElse c t f) st) := by
      rw [decompose]
      exact handleTernary_spec hinv hloads
        (ihc (by omega) (fun l hl => hcons l (.inl (.inl hl))) hgc hinv)
        (fun st₁ hinv₁ => iht (by omega) (fun l hl => hcons l (.inl (.inr hl))) hgt hinv₁)
        (fun st₁ hinv₁ => ihf (by omega) (fun l hl => hcons l (.inr hl)) hgf hinv₁) hhoist
    have hfalse : ([c, t, f].all fun e => e.resolvesInSelect N.loops S out) = false := by
      rw [Bool.eq_false_iff]
      exact fun h => hnot (List.all_eq_true.mp h)
    obtain ⟨st₁, hgrows, hres, hr⟩ := hspec
    rw [hfalse] at hres
    refine ⟨st₁, hgrows, hres, .inl ?_⟩
    rcases hr with hr | ⟨call, ref, t, -, hr⟩
    · exact hr
    · rw [hr] at hres
      cases hres
  | other t xs ls g =>
    refine operandSpec_of_handler (Nat.succ_lt_succ hdepth) rfl (by rintro _ ⟨⟩)
      (by rintro _ _ ⟨⟩) ?_
    rw [decompose]
    exact ⟨st, Grows.refl st, rfl, .inl rfl⟩

/-- A good expression at the root is computed by the last statement. -/
theorem decompose_spec (hout : ∀ e ∈ out.indices, e.isVar = true ∨ e.isConst = true)
    {e : Expr V} (hloads : ∀ l ∈ e.loads, l.1.id < base) (hgood : GoodRoot A env N.loops S out e)
    (hinv : st.Inv base) :
    HandlerSpec A env N.loops out base 1 e (decompose N.loops S out 0 e st).1 st
      (decompose N.loops S out 0 e st) := by
  have hoperand : ∀ {e : Expr V} {depth : ℕ} (st : Emitter V), 0 < depth →
      (∀ l ∈ e.loads, l.1.id < base) → Good A env N.loops S out e → st.Inv base →
      OperandSpec A env N.loops S out base e st (resolveOperand N.loops S out depth e st).1
        (resolveOperand N.loops S out depth e st).2 :=
    fun st => resolveOperand_spec hout
  cases e with
  | imm x t =>
    refine ⟨st, Grows.refl st, rfl, .inr ⟨fun r => .brc (.scalar (.imm x t)) r, out, t,
      ⟨fun _ => rfl, fun env' m p r hit hstable => rfl⟩, rfl⟩⟩
  | load buf indices =>
    refine ⟨st, Grows.refl st, rfl, .inr ⟨fun r => .copy (.region (buildRegionCall ⟨buf, indices⟩)) r,
      out, buf.dtype, ⟨fun _ => rfl, fun env' m p r hit hstable => ?_⟩, rfl⟩⟩
    rw [TileCall.value, read_single, Alg.load,
      execAll_of_lt_base hinv (hloads (buf, indices) List.mem_cons_self)]
    rfl
  | var x =>
    have hspec := hoperand st Nat.one_pos hloads hgood hinv
    obtain ⟨res, st₁, hr⟩ : ∃ res st₁, resolveOperand N.loops S out 1 (.var x) st = (res, st₁) :=
      ⟨_, _, rfl⟩
    rw [hr] at hspec
    -- a variable is resolved without decomposing it
    have hresolve : resolveOperand N.loops S out 1 (.var x) st =
        resolveWith N.loops S out (.var x) (fun st => (false, st)) st := rfl
    rw [decompose, ← hresolve, hr]
    cases res with
    | none => exact ⟨st₁, hspec.grows, rfl, .inl rfl⟩
    | some src =>
      refine ⟨st₁, hspec.grows, rfl, .inr ⟨fun r => .copy (.region (buildRegionCall src)) r, out,
        x.dtype, ⟨fun _ => rfl, fun env' m p r hit hstable => ?_⟩, rfl⟩⟩
      rw [TileCall.value, (hspec.value src rfl).read env' m p hit hstable]
  | unary op a =>
    have hla : ∀ l ∈ a.loads, l.1.id < base := hloads
    rw [decompose]
    exact (handleUnary_spec fun hrank => hoperand st Nat.one_pos hla (hgood hrank) hinv).self
  | binary op a b =>
    simp only [Expr.loads, List.mem_append] at hloads
    have hla : ∀ l ∈ a.loads, l.1.id < base := fun l hl => hloads l (.inl hl)
    have hlb : ∀ l ∈ b.loads, l.1.id < base := fun l hl => hloads l (.inr hl)
    rw [decompose]
    exact (handleBinary_spec hinv hla hlb hgood
      (fun hga => hoperand st Nat.one_pos hla hga hinv)
      fun st₁ hinv₁ hgb => hoperand st₁ Nat.one_pos hlb hgb hinv₁).self
  | ifThenElse c t f =>
    obtain ⟨hgc, hgt, hgf, hhoist⟩ := hgood
    have hcons := hloads
    simp only [Expr.loads, List.mem_append] at hcons
    rw [decompose]
    exact (handleTernary_spec hinv hloads
      (hoperand st Nat.one_pos (fun l hl => hcons l (.inl (.inl hl))) hgc hinv)
      (fun st₁ hinv₁ => hoperand st₁ Nat.one_pos (fun l hl => hcons l (.inl (.inr hl))) hgt hinv₁)
      (fun st₁ hinv₁ => hoperand st₁ Nat.one_pos (fun l hl => hcons l (.inr hl)) hgf hinv₁)
      hhoist).self
  | other t xs ls g =>
    rw [decompose]
    exact ⟨st, Grows.refl st, rfl, .inl rfl⟩

end TileLangNpuir.LoopVectorize
