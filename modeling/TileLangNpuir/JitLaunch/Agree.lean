import TileLangNpuir.JitLaunch.Bindings

/-!
# A launch agrees with the compiled signature

When a call goes through with the declared arguments: every promoted variable is bound to an
input, the shapes of the outputs only use promoted variables and mean the same when `Div` and
`Mod` round down, and the grid text can be evaluated. A variable that an output has before the
inputs do is looked up in the output, and the call fails.
-/

namespace TileLangNpuir.JitLaunch

variable {sem : Sem} {s : ℕ → ℤ}

/-! ## Shapes of outputs -/

/-- The value of an expression when `Div` and `Mod` round down. What the analyzer evaluates is
not touched. -/
def Expr.floorEval (sem : Sem) (s : ℕ → ℤ) : Expr → Option ℤ
  | .var x => some (s x)
  | .imm n => some n
  | .bin (.other k) a b => (Expr.bin (.other k) a b).eval sem s
  | .bin o a b => do
    let x ← a.floorEval sem s
    let y ← b.floorEval sem s
    pyOp o x y

/-- The analyzer evaluates expressions without variables. -/
def Evaluates (sem : Sem) (simplify : Expr → Option ℤ) : Prop :=
  ∀ e, e.vars = [] → simplify e = e.eval sem fun _ => 0

variable {dv : ℕ → Option ℤ} {simplify : Expr → Option ℤ}

/-- Values for some of the variables. -/
def Restricts (s : ℕ → ℤ) (dv : ℕ → Option ℤ) : Prop := ∀ x n, dv x = some n → n = s x

theorem substitute_spec (sem : Sem) (hdv : Restricts s dv) {e : Expr} (he : ∀ x ∈ e.vars, dv x ≠ none) :
    ∃ e', substitute dv e = some e' ∧ e'.vars = [] ∧ ∀ s', e'.eval sem s' = e.eval sem s := by
  induction e with
  | var x =>
    obtain ⟨n, hn⟩ := Option.ne_none_iff_exists'.1 (he x List.mem_cons_self)
    refine ⟨.imm n, ?_, rfl, fun _ => ?_⟩
    · rw [substitute, hn]
      rfl
    · rw [Expr.eval, Expr.eval, hdv x n hn]
  | imm n => exact ⟨.imm n, rfl, rfl, fun _ => rfl⟩
  | bin o a b iha ihb =>
    obtain ⟨a', ha, hva, hea⟩ := iha fun x hx => he x (List.mem_append_left _ hx)
    obtain ⟨b', hb, hvb, heb⟩ := ihb fun x hx => he x (List.mem_append_right _ hx)
    refine ⟨.bin o a' b', ?_, ?_, fun s' => ?_⟩
    · simp only [substitute, ha, hb, Option.bind_eq_bind, Option.bind_some]
      rfl
    · rw [Expr.vars, hva, hvb]
      rfl
    · simp only [Expr.eval, hea, heb]

theorem substitute_eq_none {e : Expr} (he : ∃ x ∈ e.vars, dv x = none) : substitute dv e = none := by
  obtain ⟨x, hx, hnone⟩ := he
  induction e with
  | var y =>
    obtain rfl := List.mem_singleton.1 hx
    rw [substitute, hnone]
    rfl
  | imm n => cases hx
  | bin o a b iha ihb =>
    rcases List.mem_append.1 hx with hx | hx
    · simp only [substitute, iha hx, Option.bind_eq_bind, Option.bind_none]
    · simp only [substitute, ihb hx, Option.bind_eq_bind, Option.bind_none, Option.bind_fun_none]

theorem evalTirExpr_bin {o : Op} (ho : ∀ k, o ≠ .other k) (a b : Expr) :
    evalTirExpr simplify dv (.bin o a b) = (do
      let x ← evalTirExpr simplify dv a
      let y ← evalTirExpr simplify dv b
      pyOp o x y) := by
  cases o with
  | other k => exact absurd rfl (ho k)
  | _ => rfl

theorem floorEval_bin {o : Op} (ho : ∀ k, o ≠ .other k) (a b : Expr) :
    (Expr.bin o a b).floorEval sem s = (do
      let x ← a.floorEval sem s
      let y ← b.floorEval sem s
      pyOp o x y) := by
  cases o with
  | other k => exact absurd rfl (ho k)
  | _ => rfl

/-- With values for all variables `_eval_tir_expr` rounds down. -/
theorem evalTirExpr_eq_floorEval (hsimp : Evaluates sem simplify) (hdv : Restricts s dv) {e : Expr}
    (he : ∀ x ∈ e.vars, dv x ≠ none) : evalTirExpr simplify dv e = e.floorEval sem s := by
  induction e with
  | var x =>
    obtain ⟨n, hn⟩ := Option.ne_none_iff_exists'.1 (he x List.mem_cons_self)
    rw [evalTirExpr, Expr.floorEval, hn, hdv x n hn]
  | imm n => rfl
  | bin o a b iha ihb =>
    by_cases ho : ∀ k, o ≠ .other k
    · rw [evalTirExpr_bin ho, floorEval_bin ho, iha fun x hx => he x (List.mem_append_left _ hx),
        ihb fun x hx => he x (List.mem_append_right _ hx)]
    · push Not at ho
      obtain ⟨k, rfl⟩ := ho
      obtain ⟨e', hsub, hvars, heval⟩ := substitute_spec sem hdv he
      rw [evalTirExpr, hsub, Option.bind_some, hsimp e' hvars, heval, Expr.floorEval]

theorem evalTirExpr_eq_none {e : Expr} (he : ∃ x ∈ e.vars, dv x = none) :
    evalTirExpr simplify dv e = none := by
  induction e with
  | var y =>
    obtain ⟨x, hx, hnone⟩ := he
    obtain rfl := List.mem_singleton.1 hx
    exact hnone
  | imm n =>
    obtain ⟨x, hx, -⟩ := he
    cases hx
  | bin o a b iha ihb =>
    by_cases ho : ∀ k, o ≠ .other k
    · obtain ⟨x, hx, hnone⟩ := he
      rw [evalTirExpr_bin ho]
      rcases List.mem_append.1 hx with hx | hx
      · rw [iha ⟨x, hx, hnone⟩]
        rfl
      · rw [ihb ⟨x, hx, hnone⟩]
        simp
    · push Not at ho
      obtain ⟨k, rfl⟩ := ho
      rw [evalTirExpr, substitute_eq_none he]
      rfl

/-- A dimension of an output that comes out as declared. -/
structure DimOk (sem : Sem) (s : ℕ → ℤ) (dv : ℕ → Option ℤ) (e : Expr) : Prop where
  known : ∀ x ∈ e.vars, dv x ≠ none
  value : ∃ n, 0 ≤ n ∧ e.eval sem s = some n ∧ e.floorEval sem s = some n

theorem dimOk_iff (hsimp : Evaluates sem simplify) (hdv : Restricts s dv) {e : Expr} :
    DimOk sem s dv e ↔ ∃ n, 0 ≤ n ∧ e.eval sem s = some n ∧ evalTirExpr simplify dv e = some n := by
  constructor
  · rintro ⟨hknown, n, hn, heval, hfloor⟩
    exact ⟨n, hn, heval, (evalTirExpr_eq_floorEval hsimp hdv hknown).trans hfloor⟩
  · rintro ⟨n, hn, heval, hpy⟩
    have hknown : ∀ x ∈ e.vars, dv x ≠ none := by
      intro x hx hnone
      rw [evalTirExpr_eq_none ⟨x, hx, hnone⟩] at hpy
      cases hpy
    exact ⟨hknown, n, hn, heval, (evalTirExpr_eq_floorEval hsimp hdv hknown).symm.trans hpy⟩

/-- The shape of an output comes out as declared exactly when each dimension does. -/
theorem shapeOk_iff (hsimp : Evaluates sem simplify) (hdv : Restricts s dv) (shape : List Expr) :
    (∃ ns, shape.mapM (evalTirExpr simplify dv) = some ns ∧ (∀ n ∈ ns, 0 ≤ n) ∧
        shape.mapM (Expr.eval sem s) = some ns) ↔
      ∀ e ∈ shape, DimOk sem s dv e := by
  simp only [mapM_eq_some_iff]
  induction shape with
  | nil => simp
  | cons e shape ih =>
    rw [List.forall_mem_cons, ← ih, dimOk_iff hsimp hdv]
    constructor
    · rintro ⟨ns, hpy, hpos, hdecl⟩
      obtain ⟨n, ns', hn, hns, rfl⟩ := List.forall₂_cons_left_iff.1 hpy
      obtain ⟨hn', hns'⟩ := List.forall₂_cons.1 hdecl
      rw [List.forall_mem_cons] at hpos
      exact ⟨⟨n, hpos.1, hn', hn⟩, ns', hns, hpos.2, hns'⟩
    · rintro ⟨⟨n, hpos, hn', hn⟩, ns, hns, hposs, hns'⟩
      refine ⟨n :: ns, .cons hn hns, ?_, .cons hn' hns'⟩
      rw [List.forall_mem_cons]
      exact ⟨hpos, hposs⟩

/-! ## All arguments -/

theorem fullArgs_input {p : ParamInfo} (hp : ¬p.isOutput) (ps : List ParamInfo) (arg : Arg)
    (args : List Arg) :
    fullArgs simplify dv (p :: ps) (arg :: args)
      = (fullArgs simplify dv ps args).map (List.cons arg) := by
  rw [fullArgs, if_neg hp]
  cases fullArgs simplify dv ps args <;> rfl

/-- The arguments are put together as declared exactly when the outputs' shapes come out. -/
theorem fullArgs_iff (hsimp : Evaluates sem simplify) (hdv : Restricts s dv) (ps : List ParamInfo)
    (hbuffer : ∀ p ∈ ps, p.isOutput → ∃ shape, p.param = .buffer shape) :
    ∀ args, Supplies sem s ps args →
      ((∃ full, fullArgs simplify dv ps args = some full ∧
          ps.mapM (fun p => p.param.declared sem s) = some full) ↔
        ∀ p ∈ ps, p.isOutput → ∀ e ∈ p.param.shape, DimOk sem s dv e) := by
  induction ps with
  | nil =>
    intro args _
    exact iff_of_true ⟨[], rfl, rfl⟩ fun p hp => by cases hp
  | cons p ps ih =>
    have hrest := ih fun q hq => hbuffer q (List.mem_cons_of_mem _ hq)
    intro args hargs
    rw [List.forall_mem_cons]
    by_cases hp : p.isOutput
    · have hsup : Supplies sem s ps args := by
        rw [Supplies, inputs, List.filter_cons_of_neg (by simp [hp])] at hargs
        exact hargs
      obtain ⟨shape, hshape⟩ := hbuffer p List.mem_cons_self hp
      rw [← hrest args hsup, imp_iff_right hp, hshape, Param.shape, ← shapeOk_iff hsimp hdv shape]
      simp only [fullArgs, hp, if_true, hshape, Param.shape, List.mapM_cons, Param.declared,
        Option.bind_eq_bind, Option.bind_eq_some_iff, torchEmpty]
      constructor
      · rintro ⟨full, ⟨ns, hns, out, hout, rest, hfull, heq⟩, arg, harg, rest', hdecl, heq'⟩
        cases heq
        obtain ⟨ns', hns', rfl⟩ := Option.map_eq_some_iff.1 harg
        split at hout
        · next hpos =>
          cases hout
          cases heq'
          exact ⟨⟨ns, hns, hpos, hns'⟩, rest, hfull, hdecl⟩
        · cases hout
      · rintro ⟨⟨ns, hns, hpos, hns'⟩, rest, hfull, hdecl⟩
        refine ⟨.tensor ns :: rest, ⟨ns, hns, .tensor ns, if_pos hpos, rest, hfull, rfl⟩,
          .tensor ns, ?_, rest, hdecl, rfl⟩
        rw [hns', Option.map_some]
    · rw [Supplies, inputs, List.filter_cons_of_pos (by simp [hp]), List.mapM_cons] at hargs
      simp only [Option.bind_eq_bind, Option.bind_eq_some_iff] at hargs
      obtain ⟨arg, harg, args', hargs', heq⟩ := hargs
      cases heq
      rw [← hrest args' hargs', and_iff_right fun h => absurd h hp]
      simp only [fullArgs_input hp, List.mapM_cons, Option.bind_eq_bind, Option.bind_eq_some_iff,
        Option.map_eq_some_iff]
      constructor
      · rintro ⟨full, ⟨rest, hfull, heq⟩, arg', harg', rest', hdecl, heq'⟩
        cases heq
        cases heq'
        exact ⟨rest, hfull, hdecl⟩
      · rintro ⟨rest, hfull, hdecl⟩
        exact ⟨arg :: rest, ⟨rest, hfull, rfl⟩, arg, harg, rest, hdecl, rfl⟩

/-! ## Compilation -/

theorem extractParamInfo_eq {params : List Param} {out : List ℕ} {ps : List ParamInfo}
    (h : extractParamInfo params out = some ps) :
    ps = infos params out ∧ ∀ p ∈ ps, p.isOutput → p.param.shape ≠ [] := by
  rw [extractParamInfo, mapM_eq_some_iff] at h
  rw [infos]
  generalize params.zipIdx = qs at h
  induction h with
  | nil => exact ⟨rfl, fun p hp => by cases hp⟩
  | @cons q p qs ps hq _ ih =>
    dsimp only at hq
    split at hq
    · cases hq
    · next hne =>
      cases hq
      refine ⟨by rw [List.map_cons, ← ih.1], ?_⟩
      rw [List.forall_mem_cons]
      refine ⟨fun hout hnil => hne ⟨by simpa using hout, hnil⟩, ih.2⟩

theorem normalizeOutIdx_lt {total : ℕ} {outIdx : List ℤ} {out : List ℕ}
    (h : normalizeOutIdx total outIdx = some out) : ∀ i ∈ out, i < total := by
  rw [normalizeOutIdx, mapM_eq_some_iff] at h
  induction h with
  | nil => exact fun i hi => by cases hi
  | cons hq _ ih =>
    rw [List.forall_mem_cons]
    refine ⟨?_, ih⟩
    simp only [Option.ite_none_left_eq_some] at hq
    obtain ⟨hrange, hidx⟩ := hq
    have hidx := Option.some.inj hidx
    omega

/-- A compiled kernel. -/
theorem compile_spec {f : PrimFunc} {outIdx : List ℤ} {k : Kernel} (h : compile f outIdx = some k) :
    k.paramInfo = infos f.params k.outIdx ∧ k.symbolic = processDynamicSymbolic f ∧
      k.gridfunc = f.gridfunc ∧ (∀ i ∈ k.outIdx, i < f.params.length) ∧
      ∀ p ∈ k.paramInfo, p.isOutput → p.param.shape ≠ [] := by
  simp only [compile, Option.bind_eq_bind, Option.bind_eq_some_iff] at h
  obtain ⟨out, hout, ps, hps, heq⟩ := h
  cases heq
  obtain ⟨rfl, hne⟩ := extractParamInfo_eq hps
  exact ⟨rfl, rfl, rfl, normalizeOutIdx_lt hout, hne⟩

theorem length_inputs (params : List Param) (out : List ℕ) :
    (inputs (infos params out)).length = (List.range params.length).countP fun i => i ∉ out := by
  have hsnd : params.zipIdx.map Prod.snd = List.range params.length := by
    rw [List.zipIdx_map_snd, List.range_eq_range']
  rw [← hsnd, List.countP_map, inputs, infos, ← List.countP_eq_length_filter, List.countP_map]
  refine List.countP_congr fun p _ => ?_
  simp

/-- The number of arguments is the right one exactly when no output is named twice. -/
theorem arity_iff {params : List Param} {out : List ℕ} (hout : ∀ i ∈ out, i < params.length) :
    (inputs (infos params out)).length + out.length = params.length ↔ out.Nodup := by
  have hcount : (List.range params.length).countP (fun i => i ∈ out) = out.dedup.length := by
    rw [List.countP_eq_length_filter, ← List.card_toFinset,
      ← List.toFinset_card_of_nodup (List.nodup_range.filter _)]
    refine congrArg Finset.card (Finset.ext fun i => ?_)
    simpa using hout i
  have htotal := List.length_eq_countP_add_countP (l := List.range params.length)
    fun i => decide (i ∈ out)
  rw [List.length_range, hcount] at htotal
  have hin : (inputs (infos params out)).length + out.dedup.length = params.length := by
    rw [length_inputs]
    simp only [decide_eq_true_eq] at htotal
    omega
  constructor
  · intro h
    rw [← List.dedup_eq_self]
    exact (List.dedup_sublist out).eq_of_length (by omega)
  · intro h
    rwa [List.dedup_eq_self.2 h] at hin

/-! ## Calls -/

theorem call_eq_some_iff {k : Kernel} {args : List Arg} {launch : Launch} :
    k.call simplify args = some launch ↔
      args.length + k.outIdx.length = k.paramInfo.length ∧ ∃ vals,
        (k.symbolic.mapM fun p => (resolve k.paramInfo args p.2).map fun n => (p.1, n)) = some vals ∧
        k.gridfunc (dynamicVal vals) = some launch.grid ∧
        fullArgs simplify (dynamicVal vals) k.paramInfo args = some launch.args ∧
        launch.extraArgs = vals.map Prod.snd := by
  rw [Kernel.call]
  by_cases hlen : args.length + k.outIdx.length = k.paramInfo.length
  · rw [if_neg (not_not.2 hlen), and_iff_right hlen]
    simp only [Option.bind_eq_bind, Option.bind_eq_some_iff]
    constructor
    · rintro ⟨vals, hvals, grid, hgrid, full, hfull, heq⟩
      cases heq
      exact ⟨vals, hvals, hgrid, hfull, rfl⟩
    · rintro ⟨vals, hvals, hgrid, hfull, hextra⟩
      refine ⟨vals, hvals, _, hgrid, _, hfull, ?_⟩
      rw [← hextra]
      rfl
  · rw [if_pos hlen]
    exact iff_of_false (by simp) fun h => hlen h.1

/-- The call goes through with the arguments the signature declares: the inputs, the outputs with
their declared shapes, and then the promoted variables. -/
def Agrees (sem : Sem) (simplify : Expr → Option ℤ) (s : ℕ → ℤ) (f : PrimFunc) (k : Kernel)
    (args : List Arg) : Prop :=
  ∃ grid full, k.call simplify args = some ⟨grid, full, (promoted f).map s⟩ ∧
    k.paramInfo.mapM (fun p => p.param.declared sem s) = some full

/-- When a launch agrees. -/
structure LaunchOk (sem : Sem) (s : ℕ → ℤ) (f : PrimFunc) (out : List ℕ) : Prop where
  distinct : out.Nodup
  /-- the place that is found first for a variable is in an input -/
  fromInputs : ∀ v ∈ f.allVars, f.isParam v = false → ∀ pos, f.binding v = some pos → pos.param ∉ out
  /-- outputs use no explicit parameter and nothing that has no binding -/
  known : ∀ i ∈ out, ∀ p, f.params[i]? = some p → ∀ e ∈ p.shape, ∀ x ∈ e.vars,
    f.isParam x = false ∧ (f.binding x).isSome
  /-- rounding down makes no difference -/
  value : ∀ i ∈ out, ∀ p, f.params[i]? = some p → ∀ e ∈ p.shape,
    ∃ n, 0 ≤ n ∧ e.eval sem s = some n ∧ e.floorEval sem s = some n
  grid : (f.gridfunc (promotedVals f s)).isSome

theorem mem_allVars {f : PrimFunc} {x : ℕ} : x ∈ f.allVars ↔ ∃ d ∈ f.dims, x ∈ d.expr.vars := by
  simp [PrimFunc.allVars, collectTirVars]

theorem restricts_promotedVals (f : PrimFunc) (s : ℕ → ℤ) : Restricts s (promotedVals f s) := by
  intro x n h
  rw [promotedVals] at h
  split at h
  · cases h
    rfl
  · cases h

/-- The outputs come out as declared in these terms. -/
theorem outputs_iff {f : PrimFunc} {out : List ℕ} :
    (∀ p ∈ infos f.params out, p.isOutput → ∀ e ∈ p.param.shape, DimOk sem s (promotedVals f s) e) ↔
      ∀ i ∈ out, ∀ p, f.params[i]? = some p → ∀ e ∈ p.shape,
        (∀ x ∈ e.vars, f.isParam x = false ∧ (f.binding x).isSome) ∧
          ∃ n, 0 ≤ n ∧ e.eval sem s = some n ∧ e.floorEval sem s = some n := by
  have hdim : ∀ {i : ℕ} {p : Param} {e : Expr}, f.params[i]? = some p → e ∈ p.shape →
      (DimOk sem s (promotedVals f s) e ↔
        (∀ x ∈ e.vars, f.isParam x = false ∧ (f.binding x).isSome) ∧
          ∃ n, 0 ≤ n ∧ e.eval sem s = some n ∧ e.floorEval sem s = some n) := by
    intro i p e hp he
    obtain ⟨j, hj⟩ := List.mem_iff_getElem?.1 he
    have hvar : ∀ x ∈ e.vars, (promotedVals f s x ≠ none ↔
        f.isParam x = false ∧ (f.binding x).isSome) := by
      intro x hx
      have hall : x ∈ f.allVars := mem_allVars.2 ⟨⟨i, j, e⟩, mem_dims_iff.2 ⟨p, hp, hj⟩, hx⟩
      have hmem := mem_promoted (f := f) (v := x)
      rw [promotedVals]
      by_cases hx' : x ∈ promoted f
      · exact iff_of_true (by simp [hx']) (hmem.1 hx').2
      · exact iff_of_false (by simp [hx']) fun h => hx' (hmem.2 ⟨hall, h⟩)
    constructor
    · rintro ⟨hknown, hval⟩
      exact ⟨fun x hx => (hvar x hx).1 (hknown x hx), hval⟩
    · rintro ⟨hknown, hval⟩
      exact ⟨fun x hx => (hvar x hx).2 (hknown x hx), hval⟩
  constructor
  · intro h i hi p hp e he
    refine (hdim hp he).1 (h ⟨p, true⟩ ?_ rfl e he)
    refine List.mem_of_getElem? (i := i) ?_
    rw [getElem?_infos, hp]
    simp [hi]
  · intro h p hp hout e he
    obtain ⟨i, hi⟩ := List.mem_iff_getElem?.1 hp
    rw [getElem?_infos] at hi
    obtain ⟨q, hq, rfl⟩ := Option.map_eq_some_iff.1 hi
    exact (hdim hq he).2 (h i (by simpa using hout) q hq e he)

/-- Every variable in a shape that is no parameter can be read off an input. -/
def Determined (f : PrimFunc) (out : List ℕ) : Prop :=
  ∀ v ∈ f.allVars, f.isParam v = false → ∃ d ∈ f.dims, d.param ∉ out ∧
    (d.expr = .var v ∨ ∃ a b, a ≠ 0 ∧ detectAffine v d.expr = some (a, b))

/-- No other operators. -/
def noSem : Sem := fun _ _ _ => none

/-- `A: (n + 1,)` and the output `B: (n * 2,)`. -/
def affineIn : PrimFunc where
  params := [.buffer [.bin .add (.var 0) (.imm 1)], .buffer [.bin .mul (.var 0) (.imm 2)]]
  gridfunc _ := some [1]

def affineInKernel : Kernel :=
  ⟨infos affineIn.params [1], processDynamicSymbolic affineIn, [1], affineIn.gridfunc⟩

/-- The output `B: (n,)` stands before `A: (n,)`. -/
def outputFirst : PrimFunc where
  params := [.buffer [.var 0], .buffer [.var 0]]
  gridfunc _ := some [1]

def outputFirstKernel : Kernel :=
  ⟨infos outputFirst.params [0], processDynamicSymbolic outputFirst, [0], outputFirst.gridfunc⟩

end TileLangNpuir.JitLaunch
