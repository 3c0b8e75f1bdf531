import Mathlib.Data.List.Infix
import TileLangNpuir.ScalarCache.Lower

/-!
# What emitted operations give

Operations are only ever appended to a block, and an operation names results before its own.
So a name keeps its value for the rest of the block (`val_mono`), and a generator that only
knows names of emitted operations (`Gen.Wf`) hands out such names (`makeValue_wf`).
-/

namespace TileLangNpuir.ScalarCache

variable {C U V : Type}

/-- The name of one of the first `n` results, or of something from before the block. -/
def Val.Bound (n : ℕ) : Val → Prop
  | .res k => k < n
  | _ => True

theorem Val.Bound.mono {n n' : ℕ} (h : n ≤ n') : ∀ {v : Val}, v.Bound n → v.Bound n'
  | .var _, _ => trivial
  | .tensor _, _ => trivial
  | .res _, hv => Nat.lt_of_lt_of_le hv h

section

variable [Inhabited V] (L : Lang C U V) (ρ : ℕ → V) (m₀ : Mem V)

theorem run_concat (is : List (Instr C U V)) (i : Instr C U V) :
    run L ρ m₀ (is ++ [i]) = (run L ρ m₀ is).step L ρ m₀ i := by
  simp only [run, List.foldl_append, List.foldl_cons, List.foldl_nil]

/-- An operation adds one result. -/
theorem step_results (M : Machine V) (i : Instr C U V) :
    ∃ v, (M.step L ρ m₀ i).results = M.results ++ [v] := by
  cases i <;> exact ⟨_, rfl⟩

@[simp]
theorem run_length (is : List (Instr C U V)) : (run L ρ m₀ is).results.length = is.length := by
  induction is using List.reverseRecOn with
  | nil => rfl
  | append_singleton is i ih =>
    obtain ⟨v, hv⟩ := step_results L ρ m₀ (run L ρ m₀ is) i
    rw [run_concat, hv, List.length_append, ih, List.length_append]
    rfl

theorem step_get (M : Machine V) (i : Instr C U V) {v : Val} (hv : v.Bound M.results.length) :
    (M.step L ρ m₀ i).get ρ m₀ v = M.get ρ m₀ v := by
  obtain ⟨r, hr⟩ := step_results L ρ m₀ M i
  cases v with
  | var x => rfl
  | tensor b => rfl
  | res k =>
    simp only [Machine.get, hr]
    rw [List.getElem?_append_left hv]

/-- The newest result. -/
theorem step_get_new (M : Machine V) (i : Instr C U V) {r : Value V}
    (hr : (M.step L ρ m₀ i).results = M.results ++ [r]) :
    (M.step L ρ m₀ i).get ρ m₀ (.res M.results.length) = r := by
  simp [Machine.get, hr]

theorem run_get_append {is js : List (Instr C U V)} {v : Val} (hv : v.Bound is.length) :
    (run L ρ m₀ (is ++ js)).get ρ m₀ v = (run L ρ m₀ is).get ρ m₀ v := by
  induction js using List.reverseRecOn with
  | nil => rw [List.append_nil]
  | append_singleton js j ih =>
    rw [← List.append_assoc, run_concat, step_get, ih]
    rw [run_length, List.length_append]
    exact hv.mono (Nat.le_add_right _ _)

/-- The value a name has once the emitted operations have run. -/
def Gen.val (g : Gen C U V) (v : Val) : Value V := (run L ρ m₀ g.instrs).get ρ m₀ v

variable {L ρ m₀}

theorem val_mono {g g' : Gen C U V} (h : g.instrs <+: g'.instrs) {v : Val}
    (hv : v.Bound g.instrs.length) : g'.val L ρ m₀ v = g.val L ρ m₀ v := by
  obtain ⟨js, hjs⟩ := h
  rw [Gen.val, ← hjs, run_get_append L ρ m₀ hv, Gen.val]

/-- Only names of emitted operations have a scalar value. -/
theorem bound_of_val {g : Gen C U V} {v : Val} {x : V} (h : g.val L ρ m₀ v = .scalar x) :
    v.Bound g.instrs.length := by
  cases v with
  | var x => trivial
  | tensor b => trivial
  | res k =>
    rcases Nat.lt_or_ge k g.instrs.length with hk | hk
    · exact hk
    · have hnone : (run L ρ m₀ g.instrs).results[k]? = none := by
        rw [List.getElem?_eq_none_iff, run_length]
        exact hk
      simp [Gen.val, Machine.get, hnone] at h

end

/-! ## Names that a generator hands out -/

/-- Every name a generator remembers is bound. -/
structure Gen.Wf (g : Gen C U V) : Prop where
  expr : ∀ e v, g.primExprMap e = some v → v.Bound g.instrs.length
  cast : ∀ v w, g.mlirValueMap v = some w → v.Bound g.instrs.length ∧ w.Bound g.instrs.length
  tensor : ∀ b, (g.varMap b).Bound g.instrs.length

theorem Gen.start_wf : (Gen.start : Gen C U V).Wf where
  expr e v h := by cases h
  cast v w h := by cases h
  tensor b := trivial

/-- A later state of a generator. -/
structure Later (g g' : Gen C U V) : Prop where
  pre : g.instrs <+: g'.instrs
  wf : g'.Wf

namespace Later

variable {g g' g'' : Gen C U V}

theorem refl (h : g.Wf) : Later g g := ⟨List.prefix_rfl, h⟩

theorem trans (h : Later g g') (h' : Later g' g'') : Later g g'' :=
  ⟨h.pre.trans h'.pre, h'.wf⟩

theorem le (h : Later g g') : g.instrs.length ≤ g'.instrs.length := h.pre.length_le

end Later

theorem emit_later {g : Gen C U V} (h : g.Wf) (i : Instr C U V) : Later g (g.emit i).2 := by
  have hle : g.instrs.length ≤ (g.emit i).2.instrs.length := by simp [Gen.emit]
  refine ⟨List.prefix_append _ _, ?_, ?_, ?_⟩
  · exact fun e v hv => (h.expr e v hv).mono hle
  · exact fun v w hw => ⟨(h.cast v w hw).1.mono hle, (h.cast v w hw).2.mono hle⟩
  · exact fun b => (h.tensor b).mono hle

theorem emit_bound (g : Gen C U V) (i : Instr C U V) :
    (g.emit i).1.Bound (g.emit i).2.instrs.length := by
  simp [Gen.emit, Val.Bound]

theorem createIndexCastOp_later {g : Gen C U V} (h : g.Wf) {v : Val} (hv : v.Bound g.instrs.length) :
    Later g (g.createIndexCastOp v).2 ∧
      (g.createIndexCastOp v).1.Bound (g.createIndexCastOp v).2.instrs.length := by
  cases hm : g.mlirValueMap v with
  | some w =>
    simp only [Gen.createIndexCastOp, hm]
    exact ⟨Later.refl h, (h.cast v w hm).2⟩
  | none =>
    simp only [Gen.createIndexCastOp, hm]
    have hl := emit_later h (.indexCast v)
    refine ⟨⟨hl.pre, hl.wf.expr, ?_, hl.wf.tensor⟩, emit_bound g _⟩
    intro v' w hw
    change Function.update g.mlirValueMap v _ v' = some w at hw
    by_cases hvv : v' = v
    · rw [hvv, Function.update_self] at hw
      cases hw
      exact ⟨hvv ▸ hv.mono hl.le, emit_bound g _⟩
    · rw [Function.update_of_ne hvv] at hw
      exact hl.wf.cast v' w hw

variable [DecidableEq C] [DecidableEq U]

theorem emitFor_later {g : Gen C U V} (h : g.Wf) (e : Expr C U) (i : Instr C U V) :
    Later g (g.emitFor e i).2 ∧ (g.emitFor e i).1.Bound (g.emitFor e i).2.instrs.length := by
  have hl := emit_later h i
  refine ⟨⟨hl.pre, ?_, hl.wf.cast, hl.wf.tensor⟩, emit_bound g i⟩
  intro e' v hv
  by_cases he : e' = e
  · simp only [Gen.emitFor, Gen.updatePrimExprMap, he, Function.update_self] at hv
    cases hv
    exact emit_bound g i
  · simp only [Gen.emitFor, Gen.updatePrimExprMap] at hv
    rw [Function.update_of_ne he] at hv
    exact hl.wf.expr e' v hv

variable (cfg : Codegen)

theorem binaryOpCodegen_later {g : Gen C U V} (h : g.Wf) (o : BinOp) (t : TypeClass)
    (a b : Expr C U) (x y : Val) :
    Later g (binaryOpCodegen cfg g o t a b x y).2 ∧
      (binaryOpCodegen cfg g o t a b x y).1.Bound
        (binaryOpCodegen cfg g o t a b x y).2.instrs.length := by
  cases hm : g.primExprMap (.bin o t a b) with
  | some v =>
    simp only [binaryOpCodegen, hm]
    split
    · exact ⟨Later.refl h, h.expr _ v hm⟩
    · exact emitFor_later h _ _
  | none =>
    simp only [binaryOpCodegen, hm]
    exact emitFor_later h _ _

mutual

/-- Lowering an expression goes on with the block and hands out a bound name. -/
theorem makeValue_later : ∀ (e : Expr C U) {g : Gen C U V}, g.Wf →
    Later g (makeValue cfg e g).2 ∧
      (makeValue cfg e g).1.Bound (makeValue cfg e g).2.instrs.length
  | .imm c, g, h => by
    cases hm : g.primExprMap (.imm c) with
    | some v =>
      simp only [makeValue, hm]
      exact ⟨Later.refl h, h.expr _ v hm⟩
    | none =>
      simp only [makeValue, hm]
      exact emitFor_later h _ _
  | .var x, g, h => ⟨Later.refl h, trivial⟩
  | .un o a, g, h => by
    cases hm : g.primExprMap (.un o a) with
    | some v =>
      simp only [makeValue, hm]
      exact ⟨Later.refl h, h.expr _ v hm⟩
    | none =>
      simp only [makeValue, hm]
      have ha := makeValue_later a h
      have he := emitFor_later ha.1.wf (.un o a) (.un o (makeValue cfg a g).1)
      exact ⟨ha.1.trans he.1, he.2⟩
  | .bin o t a b, g, h => by
    simp only [makeValue]
    have ha := makeValue_later a h
    have hb := makeValue_later b ha.1.wf
    have he := binaryOpCodegen_later cfg hb.1.wf o t a b (makeValue cfg a g).1
      (makeValue cfg b (makeValue cfg a g).2).1
    exact ⟨(ha.1.trans hb.1).trans he.1, he.2⟩
  | .load b is, g, h => by
    simp only [makeValue]
    have hi := makeIndices_later is h
    split
    · exact ⟨hi.trans (emit_later hi.wf _), emit_bound _ _⟩
    · exact ⟨hi.trans (emit_later hi.wf _), emit_bound _ _⟩

theorem makeIndices_later : ∀ (is : Exprs C U) {g : Gen C U V}, g.Wf →
    Later g (makeIndices cfg is g).2
  | .nil, g, h => Later.refl h
  | .cons e es, g, h => by
    simp only [makeIndices]
    have he := makeValue_later e h
    have hc := createIndexCastOp_later he.1.wf he.2
    exact (he.1.trans hc.1).trans (makeIndices_later es hc.1.wf)

end

theorem makeValues_later (es : List (Expr C U)) : ∀ {g : Gen C U V}, g.Wf →
    Later g (makeValues cfg es g).2 := by
  induction es with
  | nil => exact fun h => Later.refl h
  | cons e es ih =>
    intro g h
    simp only [makeValues]
    have he := makeValue_later cfg e h
    exact he.1.trans (ih he.1.wf)

omit [DecidableEq C] [DecidableEq U] in
/-- A tensor that takes the place of a buffer's old one. -/
theorem setTensor_later {g : Gen C U V} (h : g.Wf) (b : ℕ) (i : Instr C U V) :
    Later g { (g.emit i).2 with
      varMap := Function.update (g.emit i).2.varMap b (g.emit i).1 } := by
  have hl := emit_later h i
  refine ⟨hl.pre, hl.wf.expr, hl.wf.cast, ?_⟩
  intro b'
  by_cases hb : b' = b
  · simp only [hb, Function.update_self]
    exact emit_bound g i
  · simp only
    rw [Function.update_of_ne hb]
    exact hl.wf.tensor b'

theorem lowerStmt_later (s : Stmt C U V) {g : Gen C U V} (h : g.Wf) :
    Later g (lowerStmt cfg s g) := by
  cases s with
  | store b is e =>
    simp only [lowerStmt]
    have he := (makeValue_later cfg e h).1
    have hi := makeIndices_later cfg is he.wf
    split
    · exact (he.trans hi).trans (setTensor_later hi.wf b _)
    · exact (he.trans hi).trans (emit_later hi.wf _)
  | eval e => exact (makeValue_later cfg e h).1
  | tile dst srcs es f =>
    simp only [lowerStmt]
    have hs := makeValues_later cfg es h
    split
    · exact hs.trans (setTensor_later hs.wf dst _)
    · exact hs.trans (emit_later hs.wf _)

theorem lower_later (prog : List (Stmt C U V)) : ∀ {g : Gen C U V}, g.Wf →
    Later g (lower cfg prog g) := by
  induction prog with
  | nil => exact fun h => Later.refl h
  | cons s prog ih =>
    intro g h
    have hs := lowerStmt_later cfg s h
    exact hs.trans (ih hs.wf)

/-! ## The calls -/

/-- Every call returned a bound name. -/
def CallsBound (cs : List (Expr C U × Val)) (n : ℕ) : Prop := ∀ c ∈ cs, c.2.Bound n

omit [DecidableEq C] [DecidableEq U] in
theorem CallsBound.mono {cs : List (Expr C U × Val)} {n n' : ℕ} (h : CallsBound cs n) (hn : n ≤ n') :
    CallsBound cs n' := fun c hc => (h c hc).mono hn

omit [DecidableEq C] [DecidableEq U] in
@[simp]
theorem callsBound_append {cs ds : List (Expr C U × Val)} {n : ℕ} :
    CallsBound (cs ++ ds) n ↔ CallsBound cs n ∧ CallsBound ds n :=
  List.forall_mem_append

omit [DecidableEq C] [DecidableEq U] in
@[simp]
theorem callsBound_singleton {c : Expr C U × Val} {n : ℕ} : CallsBound [c] n ↔ c.2.Bound n :=
  List.forall_mem_singleton

mutual

theorem calls_bound : ∀ (e : Expr C U) {g : Gen C U V}, g.Wf →
    CallsBound (calls cfg e g) (makeValue cfg e g).2.instrs.length
  | .imm c, g, h => by
    rw [calls, callsBound_singleton]
    exact (makeValue_later cfg (.imm c) h).2
  | .var x, g, h => by
    rw [calls, callsBound_singleton]
    trivial
  | .un o a, g, h => by
    have hu := makeValue_later cfg (.un o a) h
    rw [calls, callsBound_append, callsBound_singleton]
    refine ⟨?_, hu.2⟩
    cases hm : g.primExprMap (.un o a) with
    | some v => exact fun c hc => by cases hc
    | none =>
      have ha := calls_bound a h
      refine ha.mono ?_
      simp only [makeValue, hm]
      exact (emitFor_later (makeValue_later cfg a h).1.wf _ _).1.le
  | .bin o t a b, g, h => by
    have ha := makeValue_later cfg a h
    have hb := makeValue_later cfg b ha.1.wf
    have hle : (makeValue cfg b (makeValue cfg a g).2).2.instrs.length
        ≤ (makeValue cfg (.bin o t a b) g).2.instrs.length := by
      simp only [makeValue]
      exact (binaryOpCodegen_later cfg hb.1.wf o t a b _ _).1.le
    rw [calls, callsBound_append, callsBound_append, callsBound_singleton]
    refine ⟨⟨?_, ?_⟩, (makeValue_later cfg (.bin o t a b) h).2⟩
    · exact (calls_bound a h).mono (hb.1.le.trans hle)
    · exact (calls_bound b ha.1.wf).mono hle
  | .load b is, g, h => by
    rw [calls, callsBound_append, callsBound_singleton]
    refine ⟨?_, (makeValue_later cfg (.load b is) h).2⟩
    refine (callsOfIndices_bound is h).mono ?_
    have hi := makeIndices_later cfg is h
    simp only [makeValue]
    split
    · exact (emit_later hi.wf _).le
    · exact (emit_later hi.wf _).le

theorem callsOfIndices_bound : ∀ (is : Exprs C U) {g : Gen C U V}, g.Wf →
    CallsBound (callsOfIndices cfg is g) (makeIndices cfg is g).2.instrs.length
  | .nil, g, h => by
    rw [callsOfIndices]
    exact fun c hc => by cases hc
  | .cons e es, g, h => by
    have he := makeValue_later cfg e h
    have hc := createIndexCastOp_later he.1.wf he.2
    rw [callsOfIndices, callsBound_append]
    simp only [makeIndices]
    refine ⟨?_, callsOfIndices_bound es hc.1.wf⟩
    exact (calls_bound e h).mono (hc.1.le.trans (makeIndices_later cfg es hc.1.wf).le)

end

theorem callsOfValues_bound (es : List (Expr C U)) : ∀ {g : Gen C U V}, g.Wf →
    CallsBound (callsOfValues cfg es g) (makeValues cfg es g).2.instrs.length := by
  induction es with
  | nil =>
    intro g h c hc
    cases hc
  | cons e es ih =>
    intro g h
    have he := makeValue_later cfg e h
    rw [callsOfValues, callsBound_append]
    simp only [makeValues]
    exact ⟨(calls_bound cfg e h).mono (makeValues_later cfg es he.1.wf).le, ih he.1.wf⟩

end TileLangNpuir.ScalarCache
