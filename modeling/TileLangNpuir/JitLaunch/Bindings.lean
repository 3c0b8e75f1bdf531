import Mathlib.Data.Finset.Card
import Mathlib.Tactic.Ring
import TileLangNpuir.JitLaunch.Launch
import TileLangNpuir.Lib.Layers

/-!
# Reading variables off the arguments

A dimension that `_detect_affine` accepts is the affine expression it says (`eval_of_detectAffine`),
so `_calcu_grid` gets every variable back from the place it is bound to, unless that place is in
an output (`resolve_eq`).
-/

namespace TileLangNpuir.JitLaunch

variable {sem : Sem} {s : ℕ → ℤ}

/-! ## Affine dimensions -/

theorem eval_of_detectAffine {v : ℕ} {e : Expr} {a b : ℤ} (h : detectAffine v e = some (a, b))
    {n : ℤ} (hn : e.eval sem s = some n) : n = a * s v + b := by
  induction e generalizing a b n with
  | var x =>
    rw [detectAffine] at h
    split at h
    · next hx =>
      cases h
      cases hn
      rw [hx]
      ring
    · cases h
  | imm m =>
    cases h
    cases hn
    ring
  | bin o e₁ e₂ ih₁ ih₂ =>
    simp only [Expr.eval, Option.bind_eq_bind, Option.bind_eq_some_iff] at hn
    obtain ⟨x, hx, y, hy, hop⟩ := hn
    -- an operator that is accepted comes with the coefficients of its operands
    have hboth : ∀ {l r : ℤ × ℤ}, detectAffine v e₁ = some l → detectAffine v e₂ = some r →
        x = l.1 * s v + l.2 ∧ y = r.1 * s v + r.2 := fun hl hr => ⟨ih₁ hl hx, ih₂ hr hy⟩
    cases o with
    | add =>
      simp only [detectAffine, Option.bind_eq_bind, Option.bind_eq_some_iff] at h
      obtain ⟨l, hl, r, hr, hab⟩ := h
      cases hab
      cases hop
      obtain ⟨rfl, rfl⟩ := hboth hl hr
      ring
    | sub =>
      simp only [detectAffine, Option.bind_eq_bind, Option.bind_eq_some_iff] at h
      obtain ⟨l, hl, r, hr, hab⟩ := h
      cases hab
      cases hop
      obtain ⟨rfl, rfl⟩ := hboth hl hr
      ring
    | mul =>
      simp only [detectAffine, Option.bind_eq_bind, Option.bind_eq_some_iff] at h
      obtain ⟨l, hl, r, hr, hab⟩ := h
      cases hop
      obtain ⟨rfl, rfl⟩ := hboth hl hr
      split at hab
      · next hzero =>
        cases hab
        rw [hzero]
        ring
      · split at hab
        · next hzero =>
          cases hab
          rw [hzero]
          ring
        · cases hab
    | floorDiv =>
      cases e₂ with
      | imm d =>
        simp only [detectAffine, Option.bind_eq_bind, Option.bind_eq_some_iff] at h
        obtain ⟨l, hl, hab⟩ := h
        split at hab
        · next hzero =>
          cases hab
          cases hy
          rw [Op.eval] at hop
          split at hop
          · cases hop
          · cases hop
            rw [ih₁ hl hx, hzero]
            ring_nf
        · cases hab
      | var x => cases h
      | bin o a b => cases h
    | div => cases h
    | mod => cases h
    | max => cases h
    | min => cases h
    | other k => cases h

/-! ## Places -/

/-- A dimension of a buffer is found at its place. -/
theorem mem_dims_iff {f : PrimFunc} {d : Dim} :
    d ∈ f.dims ↔ ∃ p, f.params[d.param]? = some p ∧ p.shape[d.dim]? = some d.expr := by
  simp only [PrimFunc.dims, List.mem_flatMap, List.mem_map, Prod.exists,
    List.mem_zipIdx_iff_getElem?]
  constructor
  · rintro ⟨p, i, hp, e, j, he, rfl⟩
    exact ⟨p, hp, he⟩
  · rintro ⟨p, hp, he⟩
    exact ⟨p, d.param, hp, d.expr, d.dim, he, rfl⟩

/-- What a binding says about the dimension at its place. -/
def Pos.Reads (v : ℕ) (e : Expr) : Pos → Prop
  | .direct _ _ => e = .var v
  | .affine _ _ a b => a ≠ 0 ∧ detectAffine v e = some (a, b)

def Pos.dim : Pos → ℕ
  | .direct _ j => j
  | .affine _ j _ _ => j

theorem binding_spec {f : PrimFunc} {v : ℕ} {pos : Pos} (h : f.binding v = some pos) :
    ∃ p e, f.params[pos.param]? = some p ∧ p.shape[pos.dim]? = some e ∧ pos.Reads v e := by
  rw [PrimFunc.binding] at h
  split at h
  · next pos' hdirect =>
    cases h
    obtain ⟨d, hd, hbind⟩ := List.exists_of_findSome?_eq_some hdirect
    rw [bindDirect] at hbind
    split at hbind
    · next he =>
      cases hbind
      obtain ⟨p, hp, hshape⟩ := mem_dims_iff.1 hd
      exact ⟨p, d.expr, hp, hshape, he⟩
    · cases hbind
  · obtain ⟨d, hd, hbind⟩ := List.exists_of_findSome?_eq_some h
    obtain ⟨p, hp, hshape⟩ := mem_dims_iff.1 hd
    unfold bindAffine at hbind
    split at hbind
    · cases hbind
    · split at hbind
      · next a b haff =>
        split at hbind
        · cases hbind
        · next ha =>
          cases hbind
          exact ⟨p, d.expr, hp, hshape, ha, haff⟩
      · cases hbind

/-! ## Arguments -/

/-- The argument that a parameter is declared to get. -/
def Param.declared (sem : Sem) (s : ℕ → ℤ) : Param → Option Arg
  | .buffer shape => (shape.mapM (Expr.eval sem s)).map .tensor
  | .scalar x => some (.scalar (s x))

/-- The parameters with their part. -/
def infos (params : List Param) (out : List ℕ) : List ParamInfo :=
  params.zipIdx.map fun p => ⟨p.1, p.2 ∈ out⟩

theorem getElem?_infos (params : List Param) (out : List ℕ) (i : ℕ) :
    (infos params out)[i]? = params[i]?.map fun p => ⟨p, decide (i ∈ out)⟩ := by
  rw [infos, List.getElem?_map, List.getElem?_zipIdx, Option.map_map]
  simp [Function.comp_def]

/-- The inputs. -/
def inputs (ps : List ParamInfo) : List ParamInfo := ps.filter fun p => !p.isOutput

theorem getElem?_inputs (ps : List ParamInfo) {i : ℕ} {p : ParamInfo} (hp : ps[i]? = some p)
    (hin : p.isOutput = false) :
    (inputs ps)[(ps.take i).countP fun q => !q.isOutput]? = some p := by
  induction ps generalizing i with
  | nil => cases hp
  | cons q ps ih =>
    cases i with
    | zero =>
      cases hp
      rw [inputs, List.filter_cons_of_pos (by simp [hin])]
      rfl
    | succ i =>
      rw [List.getElem?_cons_succ] at hp
      have hrest := ih hp
      rw [inputs, List.take_succ_cons]
      by_cases hq : q.isOutput
      · rw [List.filter_cons_of_neg (by simp [hq]), List.countP_cons_of_neg (by simp [hq])]
        exact hrest
      · rw [List.filter_cons_of_pos (by simp [hq]), List.countP_cons_of_pos (by simp [hq])]
        exact hrest

/-- The arguments of a call: what the inputs are declared to get. -/
def Supplies (sem : Sem) (s : ℕ → ℤ) (ps : List ParamInfo) (args : List Arg) : Prop :=
  (inputs ps).mapM (fun p => p.param.declared sem s) = some args

theorem Supplies.getElem? {ps : List ParamInfo} {args : List Arg} (h : Supplies sem s ps args)
    {i : ℕ} {p : ParamInfo} (hp : ps[i]? = some p) (hin : p.isOutput = false) :
    ∃ arg, args[(ps.take i).countP fun q => !q.isOutput]? = some arg ∧
      p.param.declared sem s = some arg := by
  have hall := mapM_eq_some_iff.1 h
  exact exists_getElem?_of_forall₂ hall (getElem?_inputs ps hp hin)

/-- A variable is read off as what it is, unless it is bound to an output. -/
theorem resolve_eq {f : PrimFunc} {out : List ℕ} {args : List Arg}
    (h : Supplies sem s (infos f.params out) args) {v : ℕ} {pos : Pos}
    (hbind : f.binding v = some pos) :
    resolve (infos f.params out) args pos = if pos.param ∈ out then none else some (s v) := by
  obtain ⟨p, e, hp, he, hreads⟩ := binding_spec hbind
  have hinfo : (infos f.params out)[pos.param]? = some ⟨p, decide (pos.param ∈ out)⟩ := by
    rw [getElem?_infos, hp]
    rfl
  by_cases hout : pos.param ∈ out
  · rw [if_pos hout, resolve, origToInput, hinfo]
    simp [hout]
  · rw [if_neg hout]
    obtain ⟨arg, harg, hdecl⟩ := h.getElem? hinfo (by simp [hout])
    -- the parameter is a buffer, since it has a dimension
    cases p with
    | scalar x => cases he
    | buffer shape =>
      obtain ⟨ns, hns, rfl⟩ := Option.map_eq_some_iff.1 hdecl
      obtain ⟨n, hn, heval⟩ := exists_getElem?_of_forall₂ (mapM_eq_some_iff.1 hns) he
      have hpos : origToInput (infos f.params out) pos.param
          = some (((infos f.params out).take pos.param).countP fun q => !q.isOutput) := by
        rw [origToInput, hinfo]
        simp [hout]
      rw [resolve, hpos]
      simp only [Option.bind_eq_bind, Option.bind_some, harg]
      cases pos with
      | direct i j =>
        rw [hreads] at heval
        cases heval
        exact hn
      | affine i j a b =>
        obtain ⟨ha, haff⟩ := hreads
        have hval := eval_of_detectAffine haff heval
        simp only [Pos.dim] at hn
        simp only [hn, Option.map_some, hval, add_sub_cancel_right]
        rw [Int.mul_fdiv_cancel_left _ ha]

/-! ## The promoted variables -/

theorem mem_processDynamicSymbolic {f : PrimFunc} {v : ℕ} {pos : Pos} :
    (v, pos) ∈ processDynamicSymbolic f ↔
      v ∈ f.allVars ∧ f.isParam v = false ∧ f.binding v = some pos := by
  simp only [processDynamicSymbolic, List.mem_filterMap]
  constructor
  · rintro ⟨w, hw, heq⟩
    split at heq
    · cases heq
    · next hparam =>
      obtain ⟨pos', hpos', hpair⟩ := Option.map_eq_some_iff.1 heq
      cases hpair
      exact ⟨hw, by simpa using hparam, hpos'⟩
  · rintro ⟨hv, hparam, hpos⟩
    refine ⟨v, hv, ?_⟩
    rw [hparam, hpos]
    rfl

theorem mem_promoted {f : PrimFunc} {v : ℕ} :
    v ∈ promoted f ↔ v ∈ f.allVars ∧ f.isParam v = false ∧ (f.binding v).isSome := by
  simp only [promoted, List.mem_map, Prod.exists, exists_and_right, exists_eq_right,
    mem_processDynamicSymbolic, exists_and_left, Option.isSome_iff_exists]

/-- The values of the promoted variables. -/
def promotedVals (f : PrimFunc) (s : ℕ → ℤ) (x : ℕ) : Option ℤ :=
  if x ∈ promoted f then some (s x) else none

theorem dynamicVal_map (vs : List ℕ) (x : ℕ) :
    dynamicVal (vs.map fun v => (v, s v)) x = if x ∈ vs then some (s x) else none := by
  induction vs with
  | nil => rfl
  | cons v vs ih =>
    rw [dynamicVal, List.map_cons, List.find?_cons]
    by_cases hvx : v = x
    · simp [hvx]
    · have hxv : ¬x = v := fun h => hvx h.symm
      simp only [hvx, decide_false, List.mem_cons, hxv, false_or]
      exact ih

/-- `_calcu_grid` reads all promoted variables off exactly when none is bound to an output. -/
theorem mapM_resolve_iff {f : PrimFunc} {out : List ℕ} {args : List Arg}
    (h : Supplies sem s (infos f.params out) args) (vals : List (ℕ × ℤ)) :
    ((processDynamicSymbolic f).mapM fun p =>
        (resolve (infos f.params out) args p.2).map fun n => (p.1, n)) = some vals ↔
      (∀ p ∈ processDynamicSymbolic f, p.2.param ∉ out) ∧
        vals = (promoted f).map fun v => (v, s v) := by
  rw [mapM_eq_some_iff]
  have hbind : ∀ p ∈ processDynamicSymbolic f, f.binding p.1 = some p.2 :=
    fun p hp => (mem_processDynamicSymbolic.1 hp).2.2
  rw [promoted, List.map_map]
  generalize processDynamicSymbolic f = ps at hbind
  induction ps generalizing vals with
  | nil => simp
  | cons p ps ih =>
    have hres := resolve_eq h (hbind p List.mem_cons_self)
    have hrest := fun vals => ih vals fun q hq => hbind q (List.mem_cons_of_mem _ hq)
    rw [List.forall₂_cons_left_iff]
    simp only [hres, hrest, List.forall_mem_cons, List.map_cons, Function.comp_apply]
    constructor
    · rintro ⟨val, vals', hval, ⟨hps, rfl⟩, rfl⟩
      by_cases hout : p.2.param ∈ out
      · rw [if_pos hout] at hval
        cases hval
      · rw [if_neg hout] at hval
        cases hval
        exact ⟨⟨hout, hps⟩, rfl⟩
    · rintro ⟨⟨hout, hps⟩, rfl⟩
      exact ⟨_, _, by rw [if_neg hout]; rfl, ⟨hps, rfl⟩, rfl⟩

end TileLangNpuir.JitLaunch
