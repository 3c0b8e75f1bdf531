import TileLangNpuir.ScalarCache.Denote

/-!
# When remembered expressions do no harm

An expression that is answered from `prim_expr_map` has the value it had when it was lowered
first. The source program alone says when that is the value it should have: `Steady` walks the
program with a table of these first values. A block is lowered right exactly when its program is
steady.
-/

namespace TileLangNpuir.ScalarCache

variable {C U V : Type}

/-! ## Steady programs -/

/-- The first values of expressions. -/
abbrev Remembered (C U V : Type) : Type := Expr C U → Option V

/-- The expressions that are answered without a look at their operands. -/
def Expr.kept (recheck : Bool) : Expr C U → Bool
  | .un _ _ => true
  | .bin _ _ _ _ => !recheck
  | _ => false

section

variable [DecidableEq C] [DecidableEq U]

def Remembered.keep (T : Remembered C U V) (recheck : Bool) (e : Expr C U) (w : V) :
    Remembered C U V :=
  if e.kept recheck then Function.update T e (some w) else T

variable (recheck : Bool) (L : Lang C U V) (ρ : ℕ → V) (m : Mem V)

mutual

/-- The first values after an expression. -/
def Expr.table : Expr C U → Remembered C U V → Remembered C U V
  | .imm _, T => T
  | .var _, T => T
  | .un o a, T => match T (.un o a) with
    | some _ => T
    | none => (a.table T).keep recheck (.un o a) ((Expr.un o a).eval L ρ m)
  | .bin o t a b, T => match b.table (a.table T) (.bin o t a b) with
    | some _ => b.table (a.table T)
    | none => (b.table (a.table T)).keep recheck (.bin o t a b) ((Expr.bin o t a b).eval L ρ m)
  | .load _ is, T => is.table T

/-- The same for indices. -/
def Exprs.table : Exprs C U → Remembered C U V → Remembered C U V
  | .nil, T => T
  | .cons e es, T => es.table (e.table T)

end

mutual

/-- An expression that is met again has its first value again; one that is new is computed by
an operation that means the same on its operands. -/
def Expr.Steady : Expr C U → Remembered C U V → Prop
  | .imm _, _ => True
  | .var _, _ => True
  | .un o a, T => match T (.un o a) with
    | some w => w = (Expr.un o a).eval L ρ m
    | none => a.Steady T ∧ L.tgt.un o (a.eval L ρ m) = L.src.un o (a.eval L ρ m)
  | .bin o t a b, T =>
    a.Steady T ∧ b.Steady (a.table recheck L ρ m T) ∧
      match b.table recheck L ρ m (a.table recheck L ρ m T) (.bin o t a b) with
      | some w => w = (Expr.bin o t a b).eval L ρ m
      | none => L.tgt.bin o t (a.eval L ρ m) (b.eval L ρ m) = L.src.bin o t (a.eval L ρ m) (b.eval L ρ m)
  | .load _ is, T => is.Steady T

/-- The same for indices. -/
def Exprs.Steady : Exprs C U → Remembered C U V → Prop
  | .nil, _ => True
  | .cons e es, T => e.Steady T ∧ es.Steady (e.table recheck L ρ m T)

end

/-- The first values after the scalars of a tile operation. -/
def tables : List (Expr C U) → Remembered C U V → Remembered C U V
  | [], T => T
  | e :: es, T => tables es (e.table recheck L ρ m T)

/-- The scalars of a tile operation. -/
def SteadyAll : List (Expr C U) → Remembered C U V → Prop
  | [], _ => True
  | e :: es, T => e.Steady recheck L ρ m T ∧ SteadyAll es (e.table recheck L ρ m T)

/-- The first values after a statement. -/
def Stmt.table : Stmt C U V → Remembered C U V → Remembered C U V
  | .store _ is e, T => is.table recheck L ρ m (e.table recheck L ρ m T)
  | .eval e, T => e.table recheck L ρ m T
  | .tile _ _ es _, T => tables recheck L ρ m es T

/-- The expressions of a statement. -/
def Stmt.Steady : Stmt C U V → Remembered C U V → Prop
  | .store _ is e, T => e.Steady recheck L ρ m T ∧ is.Steady recheck L ρ m (e.table recheck L ρ m T)
  | .eval e, T => e.Steady recheck L ρ m T
  | .tile _ _ es _, T => SteadyAll recheck L ρ m es T

/-- The statements of a block, each in the memory it runs in. -/
def SteadyProg : List (Stmt C U V) → Mem V → Remembered C U V → Prop
  | [], _, _ => True
  | s :: ss, m, T =>
    s.Steady recheck L ρ m T ∧ SteadyProg ss (s.exec L ρ m) (s.table recheck L ρ m T)

/-- A block whose expressions, from this memory, never change under the generator's feet. -/
def Steady (prog : List (Stmt C U V)) : Prop := SteadyProg recheck L ρ prog m fun _ => none

end

/-- A block. -/
def execAll (L : Lang C U V) (ρ : ℕ → V) (prog : List (Stmt C U V)) (m : Mem V) : Mem V :=
  prog.foldl (Stmt.exec L ρ) m

/-! ## The invariant of a generator -/

section

variable [DecidableEq C] [DecidableEq U] [Inhabited V]
variable (cfg : Codegen) (L : Lang C U V) (ρ : ℕ → V) (m₀ : Mem V)

/-- The calls returned what the expressions mean. -/
def Right (m : Mem V) (g : Gen C U V) (cs : List (Expr C U × Val)) : Prop :=
  ∀ c ∈ cs, g.val L ρ m₀ c.2 = .scalar (c.1.eval L ρ m)

/-- A generator that has emitted a block up to memory `m` and has remembered `T`. -/
structure Inv (g : Gen C U V) (m : Mem V) (T : Remembered C U V) : Prop where
  wf : g.Wf
  mem : ∀ b, (run L ρ m₀ g.instrs).contents ρ m₀ (bufferSrc cfg g b) = m b
  imm : ∀ c v, g.primExprMap (.imm c) = some v → g.val L ρ m₀ v = .scalar (L.const c)
  kept : ∀ e, e.kept cfg.recheck → (g.primExprMap e).map (g.val L ρ m₀) = (T e).map .scalar
  other : ∀ e, e.kept cfg.recheck = false → T e = none
  bin : ∀ o t a b v, g.primExprMap (.bin o t a b) = some v →
    ∃ n x y, v = .res n ∧ g.instrs[n]? = some (.bin o t x y) ∧
      x.Bound g.instrs.length ∧ y.Bound g.instrs.length ∧
      g.val L ρ m₀ v = .scalar (L.tgt.bin o t (g.val L ρ m₀ x).toScalar (g.val L ρ m₀ y).toScalar)
  cast : ∀ v w, g.mlirValueMap v = some w →
    g.val L ρ m₀ w = .index (L.index (g.val L ρ m₀ v).toScalar)

variable {cfg L ρ m₀} {m : Mem V} {g g' : Gen C U V} {T : Remembered C U V}

omit [DecidableEq C] [DecidableEq U] in
@[simp]
theorem right_append {cs ds : List (Expr C U × Val)} :
    Right L ρ m₀ m g (cs ++ ds) ↔ Right L ρ m₀ m g cs ∧ Right L ρ m₀ m g ds :=
  List.forall_mem_append

omit [DecidableEq C] [DecidableEq U] in
@[simp]
theorem right_singleton {c : Expr C U × Val} :
    Right L ρ m₀ m g [c] ↔ g.val L ρ m₀ c.2 = .scalar (c.1.eval L ρ m) :=
  List.forall_mem_singleton

omit [DecidableEq C] [DecidableEq U] in
theorem right_later (h : Later g g') {cs : List (Expr C U × Val)}
    (hcs : CallsBound cs g.instrs.length) : Right L ρ m₀ m g' cs ↔ Right L ρ m₀ m g cs := by
  refine forall₂_congr fun c hc => ?_
  rw [val_mono h.pre (hcs c hc)]

omit [DecidableEq C] [DecidableEq U] in
/-- The value of the operation emitted last. -/
theorem val_emit (g : Gen C U V) {i : Instr C U V} {r : Value V}
    (hr : ((run L ρ m₀ g.instrs).step L ρ m₀ i).results = (run L ρ m₀ g.instrs).results ++ [r]) :
    (g.emit i).2.val L ρ m₀ (g.emit i).1 = r := by
  have hnew := step_get_new L ρ m₀ (run L ρ m₀ g.instrs) i hr
  rw [run_length] at hnew
  rw [Gen.val, Gen.emit, run_concat]
  exact hnew

omit [DecidableEq C] [DecidableEq U] in
theorem Inv.start : Inv cfg L ρ m₀ Gen.start m₀ fun _ => none where
  wf := Gen.start_wf
  mem b := by
    unfold bufferSrc
    split
    · rfl
    · rfl
  imm c v h := by cases h
  kept e _ := rfl
  other e _ := rfl
  bin o t a b v h := by cases h
  cast v w h := by cases h

/-- Whether an operation writes to a memref. -/
def Instr.writes : Instr C U V → Bool
  | .store _ _ _ => true
  | .tileStore _ _ _ _ => true
  | _ => false

omit [DecidableEq C] [DecidableEq U] in
theorem step_mem {i : Instr C U V} (hi : i.writes = false) (M : Machine V) :
    (M.step L ρ m₀ i).mem = M.mem := by
  cases i <;> first | rfl | cases hi

omit [DecidableEq C] [DecidableEq U] in
/-- What is remembered keeps its meaning under more operations. -/
theorem Inv.emit_of_mem (h : Inv cfg L ρ m₀ g m T) (i : Instr C U V) {m' : Mem V} {f : ℕ → Val}
    (hf : ∀ b, (f b).Bound (g.emit i).2.instrs.length)
    (hm : ∀ b, (run L ρ m₀ (g.emit i).2.instrs).contents ρ m₀
      (bufferSrc cfg { (g.emit i).2 with varMap := f } b) = m' b) :
    Inv cfg L ρ m₀ { (g.emit i).2 with varMap := f } m' T := by
  have hl := emit_later h.wf i
  have hval : ∀ {v : Val}, v.Bound g.instrs.length →
      (g.emit i).2.val L ρ m₀ v = g.val L ρ m₀ v := fun hv => val_mono hl.pre hv
  refine ⟨⟨hl.wf.expr, hl.wf.cast, hf⟩, hm, ?_, ?_, h.other, ?_, ?_⟩
  · intro c v hv
    exact (hval (h.wf.expr _ v hv)).trans (h.imm c v hv)
  · intro e he
    rw [← h.kept e he]
    refine Option.map_congr fun v hv => hval (h.wf.expr e v hv)
  · intro o t a b v hv
    obtain ⟨n, x, y, hn, hi, hx, hy, hr⟩ := h.bin o t a b v hv
    refine ⟨n, x, y, hn, ?_, hx.mono hl.le, hy.mono hl.le, ?_⟩
    · obtain ⟨hlt, -⟩ := List.getElem?_eq_some_iff.1 hi
      exact (List.getElem?_append_left hlt).trans hi
    · refine (hval (h.wf.expr _ v hv)).trans (hr.trans ?_)
      change _ = Value.scalar (L.tgt.bin o t ((g.emit i).2.val L ρ m₀ x).toScalar
        ((g.emit i).2.val L ρ m₀ y).toScalar)
      rw [hval hx, hval hy]
  · intro v w hw
    obtain ⟨hv, hw'⟩ := h.wf.cast v w hw
    refine (hval hw').trans ((h.cast v w hw).trans ?_)
    change _ = Value.index (L.index ((g.emit i).2.val L ρ m₀ v).toScalar)
    rw [hval hv]

omit [DecidableEq C] [DecidableEq U] in
theorem Inv.emit (h : Inv cfg L ρ m₀ g m T) {i : Instr C U V} (hi : i.writes = false) :
    Inv cfg L ρ m₀ (g.emit i).2 m T := by
  have hl := emit_later h.wf i
  refine h.emit_of_mem i hl.wf.tensor fun b => ?_
  rw [← h.mem b]
  unfold bufferSrc
  split
  · exact congrArg Value.toTensor (val_mono hl.pre (h.wf.tensor b))
  · simp only [Machine.contents, Gen.emit, run_concat]
    rw [step_mem hi]

/-- A value that is put into the table and into `prim_expr_map`. -/
theorem Inv.updatePrimExprMap (h : Inv cfg L ρ m₀ g m T) {e : Expr C U} {v : Val} {w : V}
    (hv : v.Bound g.instrs.length)
    (himm : ∀ c, e = .imm c → g.val L ρ m₀ v = .scalar (L.const c))
    (hkept : e.kept cfg.recheck → g.val L ρ m₀ v = .scalar w)
    (hbin : ∀ o t a b, e = .bin o t a b → ∃ n x y, v = .res n ∧ g.instrs[n]? = some (.bin o t x y) ∧
      x.Bound g.instrs.length ∧ y.Bound g.instrs.length ∧
      g.val L ρ m₀ v = .scalar (L.tgt.bin o t (g.val L ρ m₀ x).toScalar (g.val L ρ m₀ y).toScalar)) :
    Inv cfg L ρ m₀ (g.updatePrimExprMap e v) m (T.keep cfg.recheck e w) := by
  have hold : ∀ {e' : Expr C U}, e' ≠ e → (g.updatePrimExprMap e v).primExprMap e' = g.primExprMap e' :=
    fun hne => Function.update_of_ne hne _ _
  have hnew : (g.updatePrimExprMap e v).primExprMap e = some v := Function.update_self _ _ _
  refine ⟨⟨?_, h.wf.cast, h.wf.tensor⟩, h.mem, ?_, ?_, ?_, ?_, h.cast⟩
  · intro e' v' hv'
    by_cases he : e' = e
    · rw [he, hnew] at hv'
      cases hv'
      exact hv
    · rw [hold he] at hv'
      exact h.wf.expr e' v' hv'
  · intro c v' hv'
    by_cases he : .imm c = e
    · rw [he, hnew] at hv'
      cases hv'
      exact himm c he.symm
    · rw [hold he] at hv'
      exact h.imm c v' hv'
  · intro e' he'
    by_cases he : e' = e
    · subst he
      rw [hnew, Remembered.keep, if_pos he', Function.update_self]
      exact congrArg some (hkept he')
    · rw [hold he, Remembered.keep]
      split
      · rw [Function.update_of_ne he]
        exact h.kept e' he'
      · exact h.kept e' he'
  · intro e' he'
    rw [Remembered.keep]
    split
    · next hk =>
      have he : e' ≠ e := by
        rintro rfl
        rw [hk] at he'
        cases he'
      rw [Function.update_of_ne he]
      exact h.other e' he'
    · exact h.other e' he'
  · intro o t a b v' hv'
    by_cases he : .bin o t a b = e
    · rw [he, hnew] at hv'
      cases hv'
      exact hbin o t a b he.symm
    · rw [hold he] at hv'
      exact h.bin o t a b v' hv'

/-! ## Expressions -/

omit [DecidableEq C] [DecidableEq U] in
/-- `CreateIndexCastOp` gives the index of a scalar. -/
theorem createIndexCastOp_spec (h : Inv cfg L ρ m₀ g m T) {v : Val} {x : V}
    (hv : g.val L ρ m₀ v = .scalar x) :
    Inv cfg L ρ m₀ (g.createIndexCastOp v).2 m T ∧
      (g.createIndexCastOp v).2.val L ρ m₀ (g.createIndexCastOp v).1 = .index (L.index x) := by
  cases hm : g.mlirValueMap v with
  | some w =>
    simp only [Gen.createIndexCastOp, hm]
    refine ⟨h, ?_⟩
    rw [h.cast v w hm, hv]
    rfl
  | none =>
    have hb := bound_of_val hv
    have hinv := h.emit (i := .indexCast v) rfl
    have hw : (g.emit (.indexCast v)).2.val L ρ m₀ (g.emit (.indexCast v)).1
        = .index (L.index (g.val L ρ m₀ v).toScalar) := val_emit g rfl
    simp only [Gen.createIndexCastOp, hm]
    refine ⟨⟨?_, hinv.mem, hinv.imm, hinv.kept, hinv.other, hinv.bin, ?_⟩, ?_⟩
    · have hl := (createIndexCastOp_later h.wf hb).1.wf
      simpa only [Gen.createIndexCastOp, hm] using hl
    · intro v' w' hw'
      change Function.update g.mlirValueMap v _ v' = some w' at hw'
      by_cases hvv : v' = v
      · rw [hvv, Function.update_self] at hw'
        cases hw'
        have hmono : (g.emit (.indexCast v)).2.val L ρ m₀ v = g.val L ρ m₀ v :=
          val_mono (emit_later h.wf (.indexCast v)).pre hb
        rw [hvv]
        exact hw.trans (by rw [← hmono]; rfl)
      · rw [Function.update_of_ne hvv] at hw'
        exact hinv.cast v' w' hw'
    · rw [hv] at hw
      exact hw

/-- A new operation with two operands. -/
theorem Inv.emitFor_bin (h : Inv cfg L ρ m₀ g m T) {o : BinOp} {t : TypeClass} (a b : Expr C U)
    {x y : Val} {w : V} (hx : x.Bound g.instrs.length) (hy : y.Bound g.instrs.length)
    (hw : L.tgt.bin o t (g.val L ρ m₀ x).toScalar (g.val L ρ m₀ y).toScalar = w) :
    Inv cfg L ρ m₀ (g.emitFor (.bin o t a b) (.bin o t x y)).2 m
      (T.keep cfg.recheck (.bin o t a b) w) := by
  have hl := emit_later h.wf (.bin o t x y)
  have hnew : (g.emit (.bin o t x y)).2.val L ρ m₀ (g.emit (.bin o t x y)).1 = .scalar w := by
    rw [← hw]
    exact val_emit g rfl
  refine (h.emit rfl).updatePrimExprMap (emit_bound g _) ?_ (fun _ => hnew) ?_
  · intro c hc
    cases hc
  · intro o' t' a' b' he
    cases he
    refine ⟨_, x, y, rfl, List.getElem?_concat_length, hx.mono hl.le, hy.mono hl.le, ?_⟩
    rw [val_mono hl.pre hx, val_mono hl.pre hy, hw]
    exact hnew

/-- A new operation with one operand. -/
theorem Inv.emitFor_un (h : Inv cfg L ρ m₀ g m T) {o : U} (a : Expr C U) {x : Val} {w : V}
    (hw : L.tgt.un o (g.val L ρ m₀ x).toScalar = w) :
    Inv cfg L ρ m₀ (g.emitFor (.un o a) (.un o x)).2 m (T.keep cfg.recheck (.un o a) w) := by
  have hnew : (g.emit (.un o x)).2.val L ρ m₀ (g.emit (.un o x)).1 = .scalar w := by
    rw [← hw]
    exact val_emit g rfl
  refine (h.emit rfl).updatePrimExprMap (emit_bound g _) ?_ (fun _ => hnew) ?_
  · intro c hc
    cases hc
  · intro o' t' a' b' he
    cases he

/-- A new constant. -/
theorem Inv.emitFor_imm (h : Inv cfg L ρ m₀ g m T) (c : C) :
    Inv cfg L ρ m₀ (g.emitFor (.imm c) (.const c)).2 m T := by
  refine (h.emit (i := .const c) rfl).updatePrimExprMap (w := L.const c) (emit_bound g _) ?_ ?_ ?_
  · intro c' hc
    cases hc
    exact val_emit g rfl
  · intro hk
    cases hk
  · intro o t a b he
    cases he

omit [DecidableEq C] [DecidableEq U] in
/-- An operation that is found again with the same operands computes on them. -/
theorem Inv.definedBy (h : Inv cfg L ρ m₀ g m T) {o : BinOp} {t : TypeClass} {a b : Expr C U}
    {v x y : Val} (hv : g.primExprMap (.bin o t a b) = some v) (hd : g.definedBy v x y = true) :
    g.val L ρ m₀ v = .scalar (L.tgt.bin o t (g.val L ρ m₀ x).toScalar (g.val L ρ m₀ y).toScalar) := by
  obtain ⟨n, x', y', rfl, hi, -, -, hr⟩ := h.bin o t a b v hv
  simp only [Gen.definedBy, hi, Bool.and_eq_true, decide_eq_true_eq] at hd
  rw [hr, hd.1, hd.2]

/-- `BinaryOpCodegen` on operands that are right. -/
theorem binaryOpCodegen_spec (h : Inv cfg L ρ m₀ g m T) (o : BinOp) (t : TypeClass) {a b : Expr C U}
    {x y : Val} (hx : g.val L ρ m₀ x = .scalar (a.eval L ρ m))
    (hy : g.val L ρ m₀ y = .scalar (b.eval L ρ m)) :
    ((binaryOpCodegen cfg g o t a b x y).2.val L ρ m₀ (binaryOpCodegen cfg g o t a b x y).1
        = .scalar ((Expr.bin o t a b).eval L ρ m) ↔
      match T (.bin o t a b) with
      | some w => w = (Expr.bin o t a b).eval L ρ m
      | none => L.tgt.bin o t (a.eval L ρ m) (b.eval L ρ m)
          = L.src.bin o t (a.eval L ρ m) (b.eval L ρ m)) ∧
    ((binaryOpCodegen cfg g o t a b x y).2.val L ρ m₀ (binaryOpCodegen cfg g o t a b x y).1
        = .scalar ((Expr.bin o t a b).eval L ρ m) →
      Inv cfg L ρ m₀ (binaryOpCodegen cfg g o t a b x y).2 m
        (match T (.bin o t a b) with
        | some _ => T
        | none => T.keep cfg.recheck (.bin o t a b) ((Expr.bin o t a b).eval L ρ m))) := by
  have hop : L.tgt.bin o t (g.val L ρ m₀ x).toScalar (g.val L ρ m₀ y).toScalar
      = L.tgt.bin o t (a.eval L ρ m) (b.eval L ρ m) := by
    rw [hx, hy]
    rfl
  have hnew : (g.emitFor (.bin o t a b) (.bin o t x y)).2.val L ρ m₀
      (g.emitFor (.bin o t a b) (.bin o t x y)).1
        = .scalar (L.tgt.bin o t (a.eval L ρ m) (b.eval L ρ m)) := by
    rw [← hop]
    exact val_emit g rfl
  have hinv : L.tgt.bin o t (a.eval L ρ m) (b.eval L ρ m) = (Expr.bin o t a b).eval L ρ m →
      Inv cfg L ρ m₀ (g.emitFor (.bin o t a b) (.bin o t x y)).2 m
        (T.keep cfg.recheck (.bin o t a b) ((Expr.bin o t a b).eval L ρ m)) :=
    fun he => h.emitFor_bin a b (bound_of_val hx) (bound_of_val hy) (hop.trans he)
  -- whether the operation may be answered from the map at all
  cases hk : (Expr.bin o t a b).kept cfg.recheck with
  | true =>
    have hr : cfg.recheck = false := by simpa [Expr.kept] using hk
    have hmap := h.kept _ hk
    cases hm : g.primExprMap (.bin o t a b) with
    | some v =>
      rw [hm] at hmap
      obtain ⟨w, hT, hw⟩ := Option.map_eq_some_iff.1 hmap.symm
      simp only [binaryOpCodegen, hm, hr, hT, Bool.not_false, Bool.true_or, if_true]
      refine ⟨?_, fun _ => h⟩
      rw [← hw, Value.scalar.injEq]
    | none =>
      rw [hm] at hmap
      have hT : T (.bin o t a b) = none := Option.map_eq_none_iff.1 hmap.symm
      simp only [binaryOpCodegen, hm, hT]
      rw [hnew, Value.scalar.injEq]
      exact ⟨Iff.rfl, hinv⟩
  | false =>
    have hr : cfg.recheck = true := by simpa [Expr.kept] using hk
    have hT := h.other _ hk
    have hkeep : T.keep cfg.recheck (.bin o t a b) ((Expr.bin o t a b).eval L ρ m) = T := by
      rw [Remembered.keep, if_neg (by simp [hk])]
    cases hm : g.primExprMap (.bin o t a b) with
    | some v =>
      simp only [binaryOpCodegen, hm, hT, hr, Bool.not_true, Bool.false_or]
      split
      · next hd =>
        rw [h.definedBy hm hd, hop, Value.scalar.injEq, ← hr, hkeep]
        exact ⟨Iff.rfl, fun _ => h⟩
      · rw [hnew, Value.scalar.injEq, ← hr]
        exact ⟨Iff.rfl, hinv⟩
    | none =>
      simp only [binaryOpCodegen, hm, hT]
      rw [hnew, Value.scalar.injEq]
      exact ⟨Iff.rfl, hinv⟩

mutual

/-- Lowering an expression: its calls are right exactly when it is steady, and then so are its
value and the state after it. -/
theorem makeValue_spec : ∀ (e : Expr C U) {g : Gen C U V} {T : Remembered C U V},
    Inv cfg L ρ m₀ g m T →
    (Right L ρ m₀ m (makeValue cfg e g).2 (calls cfg e g) ↔ e.Steady cfg.recheck L ρ m T) ∧
    (e.Steady cfg.recheck L ρ m T →
      Inv cfg L ρ m₀ (makeValue cfg e g).2 m (e.table cfg.recheck L ρ m T) ∧
      (makeValue cfg e g).2.val L ρ m₀ (makeValue cfg e g).1 = .scalar (e.eval L ρ m))
  | .imm c, g, T, h => by
    have hv : Inv cfg L ρ m₀ (makeValue cfg (.imm c) g).2 m T ∧
        (makeValue cfg (.imm c) g).2.val L ρ m₀ (makeValue cfg (.imm c) g).1
          = .scalar (L.const c) := by
      cases hm : g.primExprMap (.imm c) with
      | some v =>
        simp only [makeValue, hm]
        exact ⟨h, h.imm c v hm⟩
      | none =>
        simp only [makeValue, hm]
        exact ⟨h.emitFor_imm c, val_emit g rfl⟩
    rw [calls, right_singleton, Expr.Steady, Expr.table, Expr.eval]
    exact ⟨iff_of_true hv.2 trivial, fun _ => hv⟩
  | .var x, g, T, h => by
    rw [calls, right_singleton, Expr.Steady, Expr.table, Expr.eval]
    exact ⟨iff_of_true rfl trivial, fun _ => ⟨h, rfl⟩⟩
  | .un o a, g, T, h => by
    have hmap := h.kept (.un o a) rfl
    rw [calls, right_append, right_singleton]
    cases hm : g.primExprMap (.un o a) with
    | some v =>
      rw [hm] at hmap
      obtain ⟨w, hT, hw⟩ := Option.map_eq_some_iff.1 hmap.symm
      simp only [makeValue, hm, Expr.Steady, Expr.table, hT]
      rw [← hw, Value.scalar.injEq]
      exact ⟨⟨fun hr => hr.2, fun hr => ⟨fun c hc => (by cases hc), hr⟩⟩, fun hr => ⟨h, hr⟩⟩
    | none =>
      rw [hm] at hmap
      have hT : T (.un o a) = none := Option.map_eq_none_iff.1 hmap.symm
      obtain ⟨hright, hok⟩ := makeValue_spec a h
      have hl := (makeValue_later cfg a h.wf).1
      have he := (emitFor_later hl.wf (.un o a) (.un o (makeValue cfg a g).1)).1
      simp only [makeValue, hm, Expr.Steady, Expr.table, hT]
      have hnew : a.Steady cfg.recheck L ρ m T →
          ((makeValue cfg a g).2.emitFor (.un o a) (.un o (makeValue cfg a g).1)).2.val L ρ m₀
            ((makeValue cfg a g).2.emitFor (.un o a) (.un o (makeValue cfg a g).1)).1
              = .scalar (L.tgt.un o (a.eval L ρ m)) := by
        intro ha
        have hop := congrArg Value.toScalar (hok ha).2
        exact (val_emit _ rfl).trans (congrArg (fun x => Value.scalar (L.tgt.un o x)) hop)
      refine ⟨?_, ?_⟩
      · rw [right_later he (calls_bound cfg a h.wf), hright]
        refine and_congr_right fun ha => ?_
        rw [hnew ha, Value.scalar.injEq, Expr.eval]
      · rintro ⟨ha, hop⟩
        refine ⟨(hok ha).1.emitFor_un a ?_, ?_⟩
        · rw [(hok ha).2]
          exact hop
        · rw [hnew ha, hop, Expr.eval]
  | .bin o t a b, g, T, h => by
    obtain ⟨hra, hoka⟩ := makeValue_spec a h
    have hla := (makeValue_later cfg a h.wf).1
    have hlb := (makeValue_later cfg b hla.wf).1
    have hl := (binaryOpCodegen_later cfg hlb.wf o t a b (makeValue cfg a g).1
      (makeValue cfg b (makeValue cfg a g).2).1).1
    rw [calls, right_append, right_append, right_singleton, and_assoc]
    simp only [makeValue, Expr.Steady, Expr.table]
    rw [right_later (hlb.trans hl) (calls_bound cfg a h.wf), hra,
      right_later hl (calls_bound cfg b hla.wf)]
    -- the second operand is lowered in the state the first one leaves
    have hab : ∀ ha : a.Steady cfg.recheck L ρ m T,
        b.Steady cfg.recheck L ρ m (a.table cfg.recheck L ρ m T) →
        Inv cfg L ρ m₀ (makeValue cfg b (makeValue cfg a g).2).2 m
          (b.table cfg.recheck L ρ m (a.table cfg.recheck L ρ m T)) ∧
        (makeValue cfg b (makeValue cfg a g).2).2.val L ρ m₀ (makeValue cfg a g).1
          = .scalar (a.eval L ρ m) ∧
        (makeValue cfg b (makeValue cfg a g).2).2.val L ρ m₀ (makeValue cfg b (makeValue cfg a g).2).1
          = .scalar (b.eval L ρ m) := by
      intro ha hb
      have hsb := (makeValue_spec b (hoka ha).1).2 hb
      refine ⟨hsb.1, ?_, hsb.2⟩
      rw [val_mono hlb.pre (bound_of_val (hoka ha).2), (hoka ha).2]
    refine ⟨and_congr_right fun ha => ?_, ?_⟩
    · rw [(makeValue_spec b (hoka ha).1).1]
      refine and_congr_right fun hb => ?_
      obtain ⟨hinv, hx, hy⟩ := hab ha hb
      exact (binaryOpCodegen_spec hinv o t hx hy).1
    · rintro ⟨ha, hb, hfit⟩
      obtain ⟨hinv, hx, hy⟩ := hab ha hb
      have hspec := binaryOpCodegen_spec hinv o t hx hy
      have hval := hspec.1.2 hfit
      exact ⟨hspec.2 hval, hval⟩
  | .load b is, g, T, h => by
    obtain ⟨hri, hoki⟩ := makeIndices_spec is h
    have hli := makeIndices_later cfg is h.wf
    rw [calls, right_append, right_singleton]
    have hload : is.Steady cfg.recheck L ρ m T →
        Inv cfg L ρ m₀ (makeValue cfg (.load b is) g).2 m (is.table cfg.recheck L ρ m T) ∧
        (makeValue cfg (.load b is) g).2.val L ρ m₀ (makeValue cfg (.load b is) g).1
          = .scalar ((Expr.load b is).eval L ρ m) := by
      intro hs
      obtain ⟨hinv, hidx⟩ := hoki hs
      have hmem := hinv.mem b
      unfold bufferSrc at hmem
      rw [Expr.eval, ← hidx, ← hmem]
      simp only [makeValue]
      split
      · exact ⟨hinv.emit rfl, val_emit _ rfl⟩
      · exact ⟨hinv.emit rfl, val_emit _ rfl⟩
    have hlater : Later (makeIndices cfg is g).2 (makeValue cfg (.load b is) g).2 := by
      simp only [makeValue]
      split
      · exact emit_later hli.wf _
      · exact emit_later hli.wf _
    rw [right_later hlater (callsOfIndices_bound cfg is h.wf), hri, Expr.Steady, Expr.table]
    refine ⟨⟨fun hs => hs.1, fun hs => ⟨hs, (hload hs).2⟩⟩, hload⟩

theorem makeIndices_spec : ∀ (is : Exprs C U) {g : Gen C U V} {T : Remembered C U V},
    Inv cfg L ρ m₀ g m T →
    (Right L ρ m₀ m (makeIndices cfg is g).2 (callsOfIndices cfg is g) ↔
      is.Steady cfg.recheck L ρ m T) ∧
    (is.Steady cfg.recheck L ρ m T →
      Inv cfg L ρ m₀ (makeIndices cfg is g).2 m (is.table cfg.recheck L ρ m T) ∧
      (run L ρ m₀ (makeIndices cfg is g).2.instrs).indices ρ m₀ (makeIndices cfg is g).1
        = is.eval L ρ m)
  | .nil, g, T, h => by
    rw [callsOfIndices, Exprs.Steady, Exprs.table, Exprs.eval]
    exact ⟨iff_of_true (fun c hc => by cases hc) trivial, fun _ => ⟨h, rfl⟩⟩
  | .cons e es, g, T, h => by
    obtain ⟨hre, hoke⟩ := makeValue_spec e h
    have hle := makeValue_later cfg e h.wf
    have hlc := createIndexCastOp_later hle.1.wf hle.2
    have hls := makeIndices_later cfg es hlc.1.wf
    rw [callsOfIndices, right_append]
    simp only [makeIndices, Exprs.Steady, Exprs.table, Exprs.eval]
    rw [right_later (hlc.1.trans hls) (calls_bound cfg e h.wf), hre]
    refine ⟨and_congr_right fun he => ?_, ?_⟩
    · have hc := createIndexCastOp_spec (hoke he).1 (hoke he).2
      exact (makeIndices_spec es hc.1).1
    · rintro ⟨he, hes⟩
      have hc := createIndexCastOp_spec (hoke he).1 (hoke he).2
      obtain ⟨hinv, hidx⟩ := (makeIndices_spec es hc.1).2 hes
      refine ⟨hinv, ?_⟩
      rw [← hidx]
      refine congrArg₂ List.cons ?_ rfl
      exact congrArg Value.toIndex ((val_mono hls.pre hlc.2).trans hc.2)

end

theorem makeValues_spec (es : List (Expr C U)) : ∀ {g : Gen C U V} {T : Remembered C U V},
    Inv cfg L ρ m₀ g m T →
    (Right L ρ m₀ m (makeValues cfg es g).2 (callsOfValues cfg es g) ↔
      SteadyAll cfg.recheck L ρ m es T) ∧
    (SteadyAll cfg.recheck L ρ m es T →
      Inv cfg L ρ m₀ (makeValues cfg es g).2 m (tables cfg.recheck L ρ m es T) ∧
      (run L ρ m₀ (makeValues cfg es g).2.instrs).scalars ρ m₀ (makeValues cfg es g).1
        = es.map (Expr.eval L ρ m)) := by
  induction es with
  | nil =>
    intro g T h
    exact ⟨iff_of_true (fun c hc => by cases hc) trivial, fun _ => ⟨h, rfl⟩⟩
  | cons e es ih =>
    intro g T h
    obtain ⟨hre, hoke⟩ := makeValue_spec e h
    have hle := makeValue_later cfg e h.wf
    have hls := makeValues_later cfg es hle.1.wf
    rw [callsOfValues, right_append]
    simp only [makeValues, SteadyAll, tables]
    rw [right_later hls (calls_bound cfg e h.wf), hre]
    refine ⟨and_congr_right fun he => (ih (hoke he).1).1, ?_⟩
    rintro ⟨he, hes⟩
    obtain ⟨hinv, hval⟩ := (ih (hoke he).1).2 hes
    refine ⟨hinv, ?_⟩
    rw [List.map_cons, ← hval]
    refine congrArg₂ List.cons ?_ rfl
    exact congrArg Value.toScalar ((val_mono hls.pre hle.2).trans (hoke he).2)

end

end TileLangNpuir.ScalarCache
