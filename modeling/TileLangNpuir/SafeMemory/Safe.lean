import TileLangNpuir.SafeMemory.Legalize

/-!
# What the guards are good for

The conditions of an access come before those of its own indices in the list, so that
the guards of the indices stand outside and are tested first: a guard only loads what
the guards around it have found to be in bounds. When all of them hold, so does the
store.
-/

namespace TileLangNpuir.SafeMemory

variable {V : Type} {A : Alg V}

/-! ## Expressions -/

theorem isTrue_lt (a b : Expr V) (env : Env) (m : Mem V) :
    (Expr.lt a b).IsTrue A env m ↔ a.toInt A env m < b.toInt A env m := by
  rw [Expr.IsTrue, Expr.toInt, Expr.eval, A.int_imm, ← Expr.toInt, ← Expr.toInt]
  split <;> simp [*]

theorem isTrue_ge (a : Expr V) (n : ℤ) (env : Env) (m : Mem V) :
    (Expr.ge a (.const (A.imm n))).IsTrue A env m ↔ n ≤ a.toInt A env m := by
  rw [Expr.IsTrue, Expr.toInt, Expr.eval, A.int_imm, Expr.eval, A.int_imm, ← Expr.toInt]
  split <;> simp [*]

mutual

/-- An expression is evaluated with its own variables. -/
theorem Expr.eval_congr {env env' : Env} (m : Mem V) :
    ∀ e : Expr V, (∀ y ∈ e.vars, env y = env' y) → e.eval A env m = e.eval A env' m
  | .var x, h => by rw [Expr.eval, Expr.eval, h x List.mem_cons_self]
  | .const _, _ => rfl
  | .lt a b, h => by
    rw [Expr.eval, Expr.eval, a.eval_congr m fun y hy => h y (List.mem_append_left _ hy),
      b.eval_congr m fun y hy => h y (List.mem_append_right _ hy)]
  | .ge a b, h => by
    rw [Expr.eval, Expr.eval, a.eval_congr m fun y hy => h y (List.mem_append_left _ hy),
      b.eval_congr m fun y hy => h y (List.mem_append_right _ hy)]
  | .app _ args, h => by rw [Expr.eval, Expr.eval, args.eval_congr m h]
  | .load _ indices, h => by rw [Expr.eval, Expr.eval, indices.eval_congr m h]
  | .ite c a b, h => by
    rw [Expr.eval, Expr.eval, c.eval_congr m fun y hy => h y (List.mem_append_left _ hy),
      a.eval_congr m fun y hy => h y (List.mem_append_right _ (List.mem_append_left _ hy)),
      b.eval_congr m fun y hy => h y (List.mem_append_right _ (List.mem_append_right _ hy))]

theorem Exprs.eval_congr {env env' : Env} (m : Mem V) :
    ∀ es : Exprs V, (∀ y ∈ es.vars, env y = env' y) → es.eval A env m = es.eval A env' m
  | .nil, _ => rfl
  | .cons e es, h => by
    rw [Exprs.eval, Exprs.eval, e.eval_congr m fun y hy => h y (List.mem_append_left _ hy),
      es.eval_congr m fun y hy => h y (List.mem_append_right _ hy)]

end

theorem Expr.toInt_update {e : Expr V} {x : Var} (hx : x ∉ e.vars) (env : Env) (k : ℤ) (m : Mem V) :
    e.toInt A (Function.update env x k) m = e.toInt A env m := by
  rw [Expr.toInt, Expr.toInt, e.eval_congr m fun y hy => ?_]
  refine Function.update_of_ne ?_ k env
  rintro rfl
  exact hx hy

theorem Fact.Holds.update {f : Fact V} {x : Var} (hx : x ∉ f.vars) {env : Env} (k : ℤ)
    (h : f.Holds A env) : f.Holds A (Function.update env x k) := by
  cases f with
  | loop y lo extent =>
    obtain ⟨m, hlow, hupper⟩ := h
    obtain ⟨hy, hbounds⟩ := not_or.mp (List.mem_cons.not.mp hx)
    obtain ⟨hlo, hextent⟩ := not_or.mp (List.mem_append.not.mp hbounds)
    refine ⟨m, ?_⟩
    rw [Expr.toInt_update hlo, Expr.toInt_update hextent, Function.update_of_ne (Ne.symm hy)]
    exact ⟨hlow, hupper⟩
  | cond c =>
    obtain ⟨m, hc⟩ := h
    refine ⟨m, ?_⟩
    rwa [Expr.IsTrue, Expr.toInt_update hx]
  | notCond c =>
    obtain ⟨m, hc⟩ := h
    refine ⟨m, ?_⟩
    rwa [Expr.IsTrue, Expr.toInt_update hx]

theorem Dim.safe_toExpr (env : Env) (m : Mem V) : ∀ d : Dim, (d.toExpr A).Safe A env m
  | .const _ => trivial
  | .var _ => trivial
  | .app _ a b => ⟨a.safe_toExpr env m, b.safe_toExpr env m, trivial⟩

/-! ## Conditions -/

section

variable {P : Analyzer A} {ctx : List (Fact V)} {env : Env} {m : Mem V}

/-- Proved or tested, a condition holds. -/
theorem isTrue_of_unproved (hctx : ∀ f ∈ ctx, f.Holds A env) {c : Expr V}
    (h : ∀ c' ∈ unproved P ctx c, c'.IsTrue A env m) : c.IsTrue A env m := by
  rw [unproved] at h
  split at h
  · rename_i hproved
    exact P.sound hproved env m hctx
  · exact h c List.mem_cons_self

theorem eq_of_mem_unproved {c c' : Expr V} (h : c' ∈ unproved P ctx c) : c' = c := by
  rw [unproved] at h
  split at h
  · cases h
  · exact List.mem_singleton.mp h

theorem within_of_conditions (hctx : ∀ f ∈ ctx, f.Holds A env) :
    ∀ (is : Exprs V) (ds : List Dim), (∀ c ∈ indexConditions P ctx is ds, c.IsTrue A env m) →
      is.Within A env m ds
  | .nil, _, _ => by
    rw [Exprs.Within]
    · trivial
    · exact nofun
  | .cons _ _, [], _ => by
    rw [Exprs.Within]
    · trivial
    · exact nofun
  | .cons i is, d :: ds, h => by
    rw [indexConditions] at h
    refine ⟨fun hvars => ?_, within_of_conditions hctx is ds fun c hc => h c (List.mem_append_right _ hc)⟩
    rw [if_neg hvars] at h
    have hlt := isTrue_of_unproved (P := P) (c := .lt i (d.toExpr A)) hctx fun c hc =>
      h c (List.mem_append_left _ (List.mem_append_left _ hc))
    have hge := isTrue_of_unproved (P := P) (c := .ge i (.const (A.imm 0))) hctx fun c hc =>
      h c (List.mem_append_left _ (List.mem_append_right _ hc))
    exact ⟨(isTrue_ge i 0 env m).mp hge, (isTrue_lt _ _ env m).mp hlt⟩

theorem accessSafe_of_conditions (hctx : ∀ f ∈ ctx, f.Holds A env) {b : Buffer} {indices : Exprs V}
    (h : ∀ c ∈ checkBufferIndices P ctx b indices, c.IsTrue A env m) :
    AccessSafe A env m b indices := by
  intro hscope hrank
  rw [checkBufferIndices, if_pos ⟨hscope, hrank⟩] at h
  exact within_of_conditions hctx indices b.shape h

mutual

/-- Under its conditions, an expression only loads from within the buffers. -/
theorem Expr.safe_of_conditions (hctx : ∀ f ∈ ctx, f.Holds A env) :
    ∀ e : Expr V, (∀ c ∈ e.conditions P ctx, c.IsTrue A env m) → e.Safe A env m
  | .var _, _ => trivial
  | .const _, _ => trivial
  | .lt a b, h => ⟨a.safe_of_conditions hctx fun c hc => h c (List.mem_append_left _ hc),
      b.safe_of_conditions hctx fun c hc => h c (List.mem_append_right _ hc)⟩
  | .ge a b, h => ⟨a.safe_of_conditions hctx fun c hc => h c (List.mem_append_left _ hc),
      b.safe_of_conditions hctx fun c hc => h c (List.mem_append_right _ hc)⟩
  | .app _ args, h => args.safe_of_conditions hctx h
  | .load _ indices, h => ⟨indices.safe_of_conditions hctx fun c hc => h c (List.mem_append_right _ hc),
      accessSafe_of_conditions hctx fun c hc => h c (List.mem_append_left _ hc)⟩
  | .ite c a b, h => ⟨c.safe_of_conditions hctx fun x hx => h x (List.mem_append_left _ hx),
      fun _ => a.safe_of_conditions hctx fun x hx =>
        h x (List.mem_append_right _ (List.mem_append_left _ hx)),
      fun _ => b.safe_of_conditions hctx fun x hx =>
        h x (List.mem_append_right _ (List.mem_append_right _ hx))⟩

theorem Exprs.safe_of_conditions (hctx : ∀ f ∈ ctx, f.Holds A env) :
    ∀ es : Exprs V, (∀ c ∈ es.conditions P ctx, c.IsTrue A env m) → es.Safe A env m
  | .nil, _ => trivial
  | .cons e es, h => ⟨e.safe_of_conditions hctx fun c hc => h c (List.mem_append_left _ hc),
      es.safe_of_conditions hctx fun c hc => h c (List.mem_append_right _ hc)⟩

end

variable (A env m) in
/-- Every condition is safe to evaluate once the ones behind it hold. -/
def Ordered : List (Expr V) → Prop
  | [] => True
  | c :: cs => ((∀ c' ∈ cs, c'.IsTrue A env m) → c.Safe A env m) ∧ Ordered cs

theorem Ordered.append_of {own rest : List (Expr V)}
    (hown : ∀ c ∈ own, (∀ c' ∈ rest, c'.IsTrue A env m) → c.Safe A env m)
    (hrest : Ordered A env m rest) : Ordered A env m (own ++ rest) := by
  induction own with
  | nil => exact hrest
  | cons c own ih =>
    refine ⟨fun h => hown c List.mem_cons_self fun c' hc' => h c' (List.mem_append_right _ hc'), ?_⟩
    exact ih fun c' hc' => hown c' (List.mem_cons_of_mem _ hc')

theorem Ordered.append {a b : List (Expr V)} (ha : Ordered A env m a) (hb : Ordered A env m b) :
    Ordered A env m (a ++ b) := by
  induction a with
  | nil => exact hb
  | cons c a ih => exact ⟨fun h => ha.1 fun c' hc' => h c' (List.mem_append_left _ hc'), ih ha.2⟩

/-- The bounds of an access load what its indices load. -/
theorem safe_of_mem_indexConditions (hctx : ∀ f ∈ ctx, f.Holds A env) :
    ∀ (is : Exprs V) (ds : List Dim), (∀ c ∈ is.conditions P ctx, c.IsTrue A env m) →
      ∀ c ∈ indexConditions P ctx is ds, c.Safe A env m
  | .nil, _, _, _, hc => by
    rw [indexConditions] at hc
    · cases hc
    · exact nofun
  | .cons _ _, [], _, _, hc => by
    rw [indexConditions] at hc
    · cases hc
    · exact nofun
  | .cons i is, d :: ds, h, c, hc => by
    rw [indexConditions] at hc
    have hi := i.safe_of_conditions hctx fun c' hc' => h c' (List.mem_append_left _ hc')
    rcases List.mem_append.mp hc with hc | hc
    · split at hc
      · cases hc
      · rcases List.mem_append.mp hc with hc | hc
        · obtain rfl := eq_of_mem_unproved hc
          exact ⟨hi, d.safe_toExpr env m⟩
        · obtain rfl := eq_of_mem_unproved hc
          exact ⟨hi, trivial⟩
    · exact safe_of_mem_indexConditions hctx is ds
        (fun c' hc' => h c' (List.mem_append_right _ hc')) c hc

theorem safe_of_mem_checkBufferIndices (hctx : ∀ f ∈ ctx, f.Holds A env) {b : Buffer}
    {indices : Exprs V} {c : Expr V} (hc : c ∈ checkBufferIndices P ctx b indices)
    (h : ∀ c' ∈ indices.conditions P ctx, c'.IsTrue A env m) : c.Safe A env m := by
  rw [checkBufferIndices] at hc
  split at hc
  · exact safe_of_mem_indexConditions hctx indices b.shape h c hc
  · cases hc

mutual

theorem Expr.ordered_conditions (hctx : ∀ f ∈ ctx, f.Holds A env) :
    ∀ e : Expr V, Ordered A env m (e.conditions P ctx)
  | .var _ => trivial
  | .const _ => trivial
  | .lt a b => (a.ordered_conditions hctx).append (b.ordered_conditions hctx)
  | .ge a b => (a.ordered_conditions hctx).append (b.ordered_conditions hctx)
  | .app _ args => args.ordered_conditions hctx
  | .load _ indices => Ordered.append_of (fun _ hc => safe_of_mem_checkBufferIndices hctx hc)
      (indices.ordered_conditions hctx)
  | .ite c a b => (c.ordered_conditions hctx).append
      ((a.ordered_conditions hctx).append (b.ordered_conditions hctx))

theorem Exprs.ordered_conditions (hctx : ∀ f ∈ ctx, f.Holds A env) :
    ∀ es : Exprs V, Ordered A env m (es.conditions P ctx)
  | .nil => trivial
  | .cons e es => (e.ordered_conditions hctx).append (es.ordered_conditions hctx)

end

/-! ## Safe programs -/

variable (P ctx) in
mutual

/-- No load that needs a guard stands in a branch of an `if_then_else`, where it may never be
executed. -/
def Expr.Unskipped : Expr V → Prop
  | .var _ => True
  | .const _ => True
  | .lt a b => a.Unskipped ∧ b.Unskipped
  | .ge a b => a.Unskipped ∧ b.Unskipped
  | .app _ args => args.Unskipped
  | .load _ indices => indices.Unskipped
  | .ite c a b => c.Unskipped ∧ a.conditions P ctx = [] ∧ b.conditions P ctx = []

def Exprs.Unskipped : Exprs V → Prop
  | .nil => True
  | .cons e es => e.Unskipped ∧ es.Unskipped

end

theorem conditions_of_within :
    ∀ (is : Exprs V) (ds : List Dim), is.Within A env m ds →
      ∀ c ∈ indexConditions P ctx is ds, c.IsTrue A env m
  | .nil, _, _, _, hc => by
    rw [indexConditions] at hc
    · cases hc
    · exact nofun
  | .cons _ _, [], _, _, hc => by
    rw [indexConditions] at hc
    · cases hc
    · exact nofun
  | .cons i is, d :: ds, h, c, hc => by
    rw [indexConditions] at hc
    rcases List.mem_append.mp hc with hc | hc
    · split at hc
      · cases hc
      · rename_i hvars
        obtain ⟨hge, hlt⟩ := h.1 hvars
        rcases List.mem_append.mp hc with hc | hc
        · obtain rfl := eq_of_mem_unproved hc
          exact (isTrue_lt _ _ env m).mpr hlt
        · obtain rfl := eq_of_mem_unproved hc
          exact (isTrue_ge i 0 env m).mpr hge
    · exact conditions_of_within is ds h.2 c hc

theorem conditions_of_accessSafe {b : Buffer} {indices : Exprs V} (h : AccessSafe A env m b indices) :
    ∀ c ∈ checkBufferIndices P ctx b indices, c.IsTrue A env m := by
  intro c hc
  rw [checkBufferIndices] at hc
  split at hc
  · rename_i hb
    exact conditions_of_within indices b.shape (h hb.1 hb.2) c hc
  · cases hc

/-- Conditions of two parts. -/
theorem forall_mem_append_of {p : Expr V → Prop} {a b : List (Expr V)} (ha : ∀ c ∈ a, p c)
    (hb : ∀ c ∈ b, p c) : ∀ c ∈ a ++ b, p c :=
  fun c hc => (List.mem_append.mp hc).elim (ha c) (hb c)

mutual

/-- The conditions of an expression that only loads from within the buffers hold. -/
theorem Expr.conditions_of_safe :
    ∀ e : Expr V, e.Unskipped P ctx → e.Safe A env m → ∀ c ∈ e.conditions P ctx, c.IsTrue A env m
  | .var _, _, _ => nofun
  | .const _, _, _ => nofun
  | .lt a b, hu, hs =>
    forall_mem_append_of (a.conditions_of_safe hu.1 hs.1) (b.conditions_of_safe hu.2 hs.2)
  | .ge a b, hu, hs =>
    forall_mem_append_of (a.conditions_of_safe hu.1 hs.1) (b.conditions_of_safe hu.2 hs.2)
  | .app _ args, hu, hs => args.conditions_of_safe hu hs
  | .load _ indices, hu, hs =>
    forall_mem_append_of (conditions_of_accessSafe hs.2) (indices.conditions_of_safe hu hs.1)
  | .ite c a b, hu, hs => by
    rw [Expr.conditions, hu.2.1, hu.2.2]
    exact forall_mem_append_of (c.conditions_of_safe hu.1 hs.1) nofun

theorem Exprs.conditions_of_safe :
    ∀ es : Exprs V, es.Unskipped P ctx → es.Safe A env m → ∀ c ∈ es.conditions P ctx, c.IsTrue A env m
  | .nil, _, _ => nofun
  | .cons e es, hu, hs =>
    forall_mem_append_of (e.conditions_of_safe hu.1 hs.1) (es.conditions_of_safe hu.2 hs.2)

end

/-! ## Guards -/

theorem innerSafe_guardStmt :
    ∀ {cs : List (Expr V)}, Ordered A env m cs → ∀ {s : Stmt V},
      ((∀ c ∈ cs, c.IsTrue A env m) → s.InnerSafe A env m) →
        (guardStmt cs s).InnerSafe A env m := by
  intro cs
  induction cs with
  | nil =>
    intro _ s hs
    exact hs nofun
  | cons c cs ih =>
    intro hord s hs
    refine ih hord.2 fun hcs => ⟨fun _ => hord.1 hcs, fun hc => hs ?_⟩
    exact List.forall_mem_cons.mpr ⟨hc, hcs⟩

theorem run_guardStmt :
    ∀ {cs : List (Expr V)}, (∀ c ∈ cs, c.IsTrue A env m) → ∀ (s : Stmt V),
      (guardStmt cs s).run A env m = s.run A env m := by
  intro cs
  induction cs with
  | nil => exact fun _ _ => rfl
  | cons c cs ih =>
    intro h s
    obtain ⟨hc, hcs⟩ := List.forall_mem_cons.mp h
    refine (ih hcs (.ifThen true c s)).trans ?_
    rw [Stmt.run, if_pos hc]

theorem safe_guardValue (pad : V) :
    ∀ {cs : List (Expr V)}, Ordered A env m cs → ∀ {v : Expr V},
      ((∀ c ∈ cs, c.IsTrue A env m) → v.Safe A env m) → (guardValue cs v pad).Safe A env m := by
  intro cs
  induction cs with
  | nil =>
    intro _ v hv
    exact hv nofun
  | cons c cs ih =>
    intro hord v hv
    refine ih hord.2 fun hcs => ⟨hord.1 hcs, fun hc => hv ?_, fun _ => trivial⟩
    exact List.forall_mem_cons.mpr ⟨hc, hcs⟩

theorem eval_guardValue (pad : V) :
    ∀ {cs : List (Expr V)}, (∀ c ∈ cs, c.IsTrue A env m) → ∀ (v : Expr V),
      (guardValue cs v pad).eval A env m = v.eval A env m := by
  intro cs
  induction cs with
  | nil => exact fun _ _ => rfl
  | cons c cs ih =>
    intro h v
    obtain ⟨hc, hcs⟩ := List.forall_mem_cons.mp h
    refine (ih hcs (.ite c v (.const pad))).trans ?_
    rw [Expr.eval]
    exact if_pos hc

end

/-! ## Statements -/

section

variable (P : Analyzer A) (padding : Buffer → V)

variable (A) in
/-- The output is safe where the pass looks, and does the same as a safe original. -/
def Keeps (s s' : Stmt V) (env : Env) (m : Mem V) : Prop :=
  s'.InnerSafe A env m ∧ (s.InnerSafe A env m → s'.run A env m = s.run A env m)

/-- A statement of an innermost loop without the accesses that are handled differently: no
index of an on-chip store needs a guard, and no load in a branch does. -/
def Stmt.Plain (ctx : List (Fact V)) : Stmt V → Prop
  | .store b indices value =>
    (b.scope = .onChip → indices.conditions P ctx = []) ∧ value.Unskipped P ctx ∧
      indices.Unskipped P ctx
  | .ifThen guard _ s => guard = false ∧ s.Plain ctx
  | .ifThenElse _ s t => s.Plain ctx ∧ t.Plain ctx
  | .seq s t => s.Plain ctx ∧ t.Plain ctx
  | .evaluate _ _ args => args.Unskipped P ctx
  | .forLoop _ _ _ _ => True

variable {P padding} {ctx : List (Fact V)} {env : Env}

theorem ordered_storeConditions {m : Mem V} (hctx : ∀ f ∈ ctx, f.Holds A env) (b : Buffer)
    (indices : Exprs V) (value : Expr V) :
    Ordered A env m (storeConditions P ctx b indices value) := by
  refine Ordered.append_of (fun c hc h => ?_)
    ((value.ordered_conditions hctx).append (indices.ordered_conditions hctx))
  exact safe_of_mem_checkBufferIndices hctx hc fun c' hc' => h c' (List.mem_append_right _ hc')

/-- Under its conditions, a store only accesses what is within the buffers. -/
theorem innerSafe_of_storeConditions {m : Mem V} (hctx : ∀ f ∈ ctx, f.Holds A env) {b : Buffer}
    {indices : Exprs V} {value : Expr V}
    (h : ∀ c ∈ storeConditions P ctx b indices value, c.IsTrue A env m) :
    (Stmt.store b indices value).InnerSafe A env m := by
  refine ⟨value.safe_of_conditions (P := P) hctx fun c hc => h c ?_,
    indices.safe_of_conditions (P := P) hctx fun c hc => h c ?_,
    accessSafe_of_conditions (P := P) hctx fun c hc => h c (List.mem_append_left _ hc)⟩
  · exact List.mem_append_right _ (List.mem_append_left _ hc)
  · exact List.mem_append_right _ (List.mem_append_right _ hc)

theorem storeConditions_of_innerSafe {m : Mem V} {b : Buffer} {indices : Exprs V} {value : Expr V}
    (hv : value.Unskipped P ctx) (hi : indices.Unskipped P ctx)
    (h : (Stmt.store b indices value).InnerSafe A env m) :
    ∀ c ∈ storeConditions P ctx b indices value, c.IsTrue A env m :=
  forall_mem_append_of (conditions_of_accessSafe h.2.2)
    (forall_mem_append_of (value.conditions_of_safe hv h.1) (indices.conditions_of_safe hi h.2.1))

theorem rewriteStore_keeps {b : Buffer} {indices : Exprs V} {value : Expr V} {s' : Stmt V}
    (hplain : (Stmt.store b indices value).Plain P ctx)
    (h : rewriteStore P ctx padding b indices value = some s') (hctx : ∀ f ∈ ctx, f.Holds A env)
    (m : Mem V) : Keeps A (.store b indices value) s' env m := by
  obtain ⟨hindices, hv, hi⟩ := hplain
  have hord := ordered_storeConditions (m := m) (P := P) hctx b indices value
  rw [rewriteStore] at h
  split at h
  · rename_i hempty
    obtain rfl := Option.some.inj h
    rw [List.isEmpty_iff] at hempty
    have hnone : ∀ c ∈ storeConditions P ctx b indices value, c.IsTrue A env m := by
      rw [hempty]
      exact nofun
    exact ⟨innerSafe_of_storeConditions hctx hnone, fun _ => rfl⟩
  · split at h
    · obtain rfl := Option.some.inj h
      refine ⟨innerSafe_guardStmt hord (innerSafe_of_storeConditions hctx), fun hs => ?_⟩
      exact run_guardStmt (storeConditions_of_innerSafe hv hi hs) _
    · rename_i hscope
      obtain rfl := Option.some.inj h
      have hnone : ∀ c ∈ indices.conditions P ctx, c.IsTrue A env m := by
        rw [hindices hscope]
        exact nofun
      refine ⟨⟨safe_guardValue _ hord fun hcs => (innerSafe_of_storeConditions hctx hcs).1,
        indices.safe_of_conditions hctx hnone, ?_⟩, ?_⟩
      · intro hglobal
        rw [hscope] at hglobal
        cases hglobal
      · intro hs
        rw [Stmt.run, Stmt.run, eval_guardValue _ (storeConditions_of_innerSafe hv hi hs)]
    · cases h

/-- The body of an innermost loop. -/
theorem rewriteBody_keeps : ∀ {s s' : Stmt V}, s.hasLoop = false → s.Plain P ctx →
    rewriteBody P ctx padding s = some s' → (∀ f ∈ ctx, f.Holds A env) →
      ∀ m, Keeps A s s' env m := by
  intro s
  induction s with
  | store b indices value =>
    intro s' _ hplain h hctx m
    exact rewriteStore_keeps hplain h hctx m
  | evaluate callExtern f args =>
    intro s' _ hplain h hctx m
    rw [rewriteBody] at h
    split at h
    · rename_i hextern
      obtain rfl := Option.some.inj h
      refine ⟨innerSafe_guardStmt (args.ordered_conditions hctx) fun hcs _ =>
        args.safe_of_conditions hctx hcs, fun hs => ?_⟩
      exact run_guardStmt (args.conditions_of_safe hplain (hs hextern)) _
    · rename_i hextern
      obtain rfl := Option.some.inj h
      exact ⟨fun htrue => absurd htrue hextern, fun _ => rfl⟩
  | ifThen guard c s ih =>
    intro s' hloop hplain h hctx m
    obtain ⟨t, ht, rfl⟩ := Option.map_eq_some_iff.mp h
    obtain ⟨rfl, hplain⟩ := hplain
    have hkeeps := ih hloop hplain ht hctx m
    refine ⟨⟨fun h => Bool.noConfusion h, fun _ => hkeeps.1⟩, fun hs => ?_⟩
    rw [Stmt.run, Stmt.run]
    split
    · rename_i hc
      exact hkeeps.2 (hs.2 hc)
    · rfl
  | ifThenElse c s t ihs iht =>
    intro s' hloop hplain h hctx m
    obtain ⟨hs', ht'⟩ := Bool.or_eq_false_iff.mp hloop
    obtain ⟨s₁, hs₁, h⟩ := Option.bind_eq_some_iff.mp h
    obtain ⟨t₁, ht₁, rfl⟩ := Option.map_eq_some_iff.mp h
    have hs := ihs hs' hplain.1 hs₁ hctx m
    have ht := iht ht' hplain.2 ht₁ hctx m
    refine ⟨⟨fun _ => hs.1, fun _ => ht.1⟩, fun hsafe => ?_⟩
    rw [Stmt.run, Stmt.run]
    split
    · rename_i hc
      exact hs.2 (hsafe.1 hc)
    · rename_i hc
      exact ht.2 (hsafe.2 hc)
  | seq s t ihs iht =>
    intro s' hloop hplain h hctx m
    obtain ⟨hs', ht'⟩ := Bool.or_eq_false_iff.mp hloop
    obtain ⟨s₁, hs₁, h⟩ := Option.bind_eq_some_iff.mp h
    obtain ⟨t₁, ht₁, rfl⟩ := Option.map_eq_some_iff.mp h
    have hs := ihs hs' hplain.1 hs₁ hctx m
    have ht := iht ht' hplain.2 ht₁ hctx
    refine ⟨⟨hs.1, (ht _).1⟩, fun hsafe => ?_⟩
    rw [Stmt.run, Stmt.run, hs.2 hsafe.1]
    exact (ht _).2 hsafe.2
  | forLoop x lo extent body => exact fun hloop => absurd hloop (by simp [Stmt.hasLoop])

/-! ## Nests of loops -/

theorem hasLoop_guardStmt : ∀ (cs : List (Expr V)) (s : Stmt V),
    (guardStmt cs s).hasLoop = s.hasLoop
  | [], _ => rfl
  | c :: cs, s => hasLoop_guardStmt cs (.ifThen true c s)

theorem hasLoop_rewriteStore {b : Buffer} {indices : Exprs V} {value : Expr V} {s' : Stmt V}
    (h : rewriteStore P ctx padding b indices value = some s') : s'.hasLoop = false := by
  rw [rewriteStore] at h
  split at h
  · obtain rfl := Option.some.inj h
    rfl
  · split at h
    · obtain rfl := Option.some.inj h
      exact hasLoop_guardStmt _ _
    · obtain rfl := Option.some.inj h
      rfl
    · cases h

theorem hasLoop_rewriteBody : ∀ {s s' : Stmt V}, rewriteBody P ctx padding s = some s' →
    s'.hasLoop = s.hasLoop := by
  intro s
  induction s with
  | store b indices value => exact fun h => hasLoop_rewriteStore h
  | evaluate callExtern f args =>
    intro s' h
    rw [rewriteBody] at h
    split at h
    · obtain rfl := Option.some.inj h
      exact hasLoop_guardStmt _ _
    · obtain rfl := Option.some.inj h
      rfl
  | ifThen guard c s ih =>
    intro s' h
    obtain ⟨t, ht, rfl⟩ := Option.map_eq_some_iff.mp h
    rw [Stmt.hasLoop, Stmt.hasLoop, ih ht]
  | ifThenElse c s t ihs iht =>
    intro s' h
    obtain ⟨s₁, hs₁, h⟩ := Option.bind_eq_some_iff.mp h
    obtain ⟨t₁, ht₁, rfl⟩ := Option.map_eq_some_iff.mp h
    rw [Stmt.hasLoop, Stmt.hasLoop, ihs hs₁, iht ht₁]
  | seq s t ihs iht =>
    intro s' h
    obtain ⟨s₁, hs₁, h⟩ := Option.bind_eq_some_iff.mp h
    obtain ⟨t₁, ht₁, rfl⟩ := Option.map_eq_some_iff.mp h
    rw [Stmt.hasLoop, Stmt.hasLoop, ihs hs₁, iht ht₁]
  | forLoop x lo extent body =>
    intro s' h
    obtain ⟨t, ht, rfl⟩ := Option.map_eq_some_iff.mp h
    rfl

theorem hasLoop_legalize : ∀ {s s' : Stmt V} {ctx : List (Fact V)},
    legalize P padding ctx s = some s' → s'.hasLoop = s.hasLoop := by
  intro s
  induction s with
  | store b indices value =>
    intro s' ctx h
    obtain rfl := Option.some.inj h
    rfl
  | evaluate callExtern f args =>
    intro s' ctx h
    obtain rfl := Option.some.inj h
    rfl
  | ifThen guard c s ih =>
    intro s' ctx h
    obtain ⟨t, ht, rfl⟩ := Option.map_eq_some_iff.mp h
    rw [Stmt.hasLoop, Stmt.hasLoop, ih ht]
  | ifThenElse c s t ihs iht =>
    intro s' ctx h
    obtain ⟨s₁, hs₁, h⟩ := Option.bind_eq_some_iff.mp h
    obtain ⟨t₁, ht₁, rfl⟩ := Option.map_eq_some_iff.mp h
    rw [Stmt.hasLoop, Stmt.hasLoop, ihs hs₁, iht ht₁]
  | seq s t ihs iht =>
    intro s' ctx h
    obtain ⟨s₁, hs₁, h⟩ := Option.bind_eq_some_iff.mp h
    obtain ⟨t₁, ht₁, rfl⟩ := Option.map_eq_some_iff.mp h
    rw [Stmt.hasLoop, Stmt.hasLoop, ihs hs₁, iht ht₁]
  | forLoop x lo extent body =>
    intro s' ctx h
    rw [legalize] at h
    split at h
    · obtain ⟨t, ht, rfl⟩ := Option.map_eq_some_iff.mp h
      rfl
    · obtain ⟨t, ht, rfl⟩ := Option.map_eq_some_iff.mp h
      rfl

/-- A loop variable is not one of those around it, and its range does not mention it. -/
def Stmt.Scoped (ctx : List (Fact V)) : Stmt V → Prop
  | .forLoop x lo extent body =>
    (∀ f ∈ ctx, x ∉ f.vars) ∧ x ∉ lo.vars ∧ x ∉ extent.vars ∧ body.Scoped (.loop x lo extent :: ctx)
  | .ifThen _ c s => s.Scoped (.cond c :: ctx)
  | .ifThenElse c s t => s.Scoped (.cond c :: ctx) ∧ t.Scoped (.notCond c :: ctx)
  | .seq s t => s.Scoped ctx ∧ t.Scoped ctx
  | .store _ _ _ => True
  | .evaluate _ _ _ => True

variable (P) in
/-- The bodies of the innermost loops are plain. -/
def Stmt.LeafPlain (ctx : List (Fact V)) : Stmt V → Prop
  | .forLoop x lo extent body =>
    if body.hasLoop then body.LeafPlain (.loop x lo extent :: ctx)
    else body.Plain P (.loop x lo extent :: ctx)
  | .ifThen _ c s => s.LeafPlain (.cond c :: ctx)
  | .ifThenElse c s t => s.LeafPlain (.cond c :: ctx) ∧ t.LeafPlain (.notCond c :: ctx)
  | .seq s t => s.LeafPlain ctx ∧ t.LeafPlain ctx
  | .store _ _ _ => True
  | .evaluate _ _ _ => True

/-- What is known in an iteration of a loop. -/
theorem holds_iteration {x : Var} {lo extent : Expr V} {m : Mem V}
    (hctx : ∀ f ∈ ctx, f.Holds A env) (hx : ∀ f ∈ ctx, x ∉ f.vars) (hlo : x ∉ lo.vars)
    (hextent : x ∉ extent.vars) {k : ℕ} (hk : k < (extent.toInt A env m).toNat) :
    ∀ f ∈ Fact.loop x lo extent :: ctx, f.Holds A (Function.update env x (lo.toInt A env m + k)) := by
  refine List.forall_mem_cons.mpr ⟨⟨m, ?_⟩, fun f hf => (hctx f hf).update (hx f hf) _⟩
  rw [Expr.toInt_update hlo, Expr.toInt_update hextent, Function.update_self]
  omega

/-- Whatever the memory, the output of the pass is safe in its innermost loops, and there it
does the same as an original that is. -/
theorem legalize_keeps : ∀ {s s' : Stmt V} {ctx : List (Fact V)} {env : Env},
    s.Scoped ctx → s.LeafPlain P ctx → legalize P padding ctx s = some s' →
      (∀ f ∈ ctx, f.Holds A env) → ∀ m, s'.LeafSafe A env m ∧
        (s.LeafSafe A env m → s'.run A env m = s.run A env m) := by
  intro s
  induction s with
  | store b indices value =>
    intro s' ctx env _ _ h _ m
    obtain rfl := Option.some.inj h
    exact ⟨trivial, fun _ => rfl⟩
  | evaluate callExtern f args =>
    intro s' ctx env _ _ h _ m
    obtain rfl := Option.some.inj h
    exact ⟨trivial, fun _ => rfl⟩
  | ifThen guard c s ih =>
    intro s' ctx env hscoped hplain h hctx m
    obtain ⟨t, ht, rfl⟩ := Option.map_eq_some_iff.mp h
    have hkeeps : c.IsTrue A env m → _ := fun hc =>
      ih hscoped hplain ht (List.forall_mem_cons.mpr ⟨⟨m, hc⟩, hctx⟩) m
    refine ⟨fun hc => (hkeeps hc).1, fun hsafe => ?_⟩
    rw [Stmt.run, Stmt.run]
    split
    · rename_i hc
      exact (hkeeps hc).2 (hsafe hc)
    · rfl
  | ifThenElse c s t ihs iht =>
    intro s' ctx env hscoped hplain h hctx m
    obtain ⟨s₁, hs₁, h⟩ := Option.bind_eq_some_iff.mp h
    obtain ⟨t₁, ht₁, rfl⟩ := Option.map_eq_some_iff.mp h
    have hs : c.IsTrue A env m → _ := fun hc =>
      ihs hscoped.1 hplain.1 hs₁ (List.forall_mem_cons.mpr ⟨⟨m, hc⟩, hctx⟩) m
    have ht : ¬ c.IsTrue A env m → _ := fun hc =>
      iht hscoped.2 hplain.2 ht₁ (List.forall_mem_cons.mpr ⟨⟨m, hc⟩, hctx⟩) m
    refine ⟨⟨fun hc => (hs hc).1, fun hc => (ht hc).1⟩, fun hsafe => ?_⟩
    rw [Stmt.run, Stmt.run]
    split
    · rename_i hc
      exact (hs hc).2 (hsafe.1 hc)
    · rename_i hc
      exact (ht hc).2 (hsafe.2 hc)
  | seq s t ihs iht =>
    intro s' ctx env hscoped hplain h hctx m
    obtain ⟨s₁, hs₁, h⟩ := Option.bind_eq_some_iff.mp h
    obtain ⟨t₁, ht₁, rfl⟩ := Option.map_eq_some_iff.mp h
    have hs := ihs hscoped.1 hplain.1 hs₁ hctx m
    have ht := iht hscoped.2 hplain.2 ht₁ hctx
    refine ⟨⟨hs.1, (ht _).1⟩, fun hsafe => ?_⟩
    rw [Stmt.run, Stmt.run, hs.2 hsafe.1]
    exact (ht _).2 hsafe.2
  | forLoop x lo extent body ih =>
    intro s' ctx env hscoped hplain h hctx m
    obtain ⟨hx, hlo, hextent, hbody⟩ := hscoped
    have hiter : ∀ k < (extent.toInt A env m).toNat, _ := fun k hk =>
      holds_iteration hctx hx hlo hextent hk
    rw [legalize] at h
    rw [Stmt.LeafPlain] at hplain
    by_cases hloop : body.hasLoop
    · rw [if_pos hloop] at h hplain
      obtain ⟨t, ht, rfl⟩ := Option.map_eq_some_iff.mp h
      have hloop' : t.hasLoop = true := (hasLoop_legalize ht).trans hloop
      refine ⟨fun k hk => ?_, fun hsafe => countLoop_congr_along _ _ _ fun k hk => ?_⟩
      · rw [if_pos hloop']
        exact (ih hbody hplain ht (hiter k hk) _).1
      · have hsafe := hsafe k hk
        rw [if_pos hloop] at hsafe
        exact (ih hbody hplain ht (hiter k hk) _).2 hsafe
    · rw [if_neg hloop] at h hplain
      obtain ⟨t, ht, rfl⟩ := Option.map_eq_some_iff.mp h
      have hloop' : ¬ t.hasLoop = true := by rwa [hasLoop_rewriteBody ht]
      have hleaf : body.hasLoop = false := Bool.eq_false_iff.mpr hloop
      refine ⟨fun k hk => ?_, fun hsafe => countLoop_congr_along _ _ _ fun k hk => ?_⟩
      · rw [if_neg hloop']
        exact (rewriteBody_keeps hleaf hplain ht (hiter k hk) _).1
      · have hsafe := hsafe k hk
        rw [if_neg hloop] at hsafe
        exact (rewriteBody_keeps hleaf hplain ht (hiter k hk) _).2 hsafe

end

/-! ## Two programs -/

/-- Integers, with calls that do nothing. -/
def intAlg : Alg ℤ where
  int := id
  imm := id
  int_imm := @id_eq ℤ
  app _ _ := 0
  call _ _ m := m

/-- What the range of a loop says about a lower bound. -/
def provesLower (ctx : List (Fact ℤ)) : Expr ℤ → Bool
  | .ge (.var x) (.const n) =>
    ctx.any fun
      | .loop y (.const lo) _ => y == x && decide (n ≤ lo)
      | _ => false
  | _ => false

theorem provesLower_sound {ctx : List (Fact ℤ)} {c : Expr ℤ} (h : provesLower ctx c = true)
    (env : Env) (m : Mem ℤ) (hctx : ∀ f ∈ ctx, f.Holds intAlg env) : c.IsTrue intAlg env m := by
  unfold provesLower at h
  split at h
  · rename_i x n
    obtain ⟨f, hf, hfact⟩ := List.any_eq_true.mp h
    split at hfact
    · rename_i y lo extent
      obtain ⟨hy, hlo⟩ := Bool.and_eq_true_iff.mp hfact
      obtain rfl := eq_of_beq hy
      obtain ⟨_, hbound, _⟩ := hctx _ hf
      refine (isTrue_ge (A := intAlg) (.var y) n env m).mpr ?_
      exact Int.le_trans (of_decide_eq_true hlo) hbound
    · cases hfact
  · cases h

def rangeAnalyzer : Analyzer intAlg where
  canProve := provesLower
  sound := provesLower_sound

/-- `C` has `n` elements, where variable 0 is `n`. -/
def vectorC : Buffer := ⟨0, .global, [.var 0]⟩

/-- The store `C[i] = 1`, where variable 1 is `i`. -/
def storeC : Stmt ℤ := .store vectorC (.cons (.var 1) .nil) (.const 1)

/-- `for i in range(8): C[i] = 1`. -/
def fillC : Stmt ℤ := .forLoop 1 (.const 0) (.const 8) storeC

/-- The same with a loop beside the store: `for i in range(8): { C[i] = 1; for j in range(2): pass }`. -/
def fillBesideLoop : Stmt ℤ :=
  .forLoop 1 (.const 0) (.const 8)
    (.seq storeC (.forLoop 2 (.const 0) (.const 2) (.evaluate false 0 .nil)))

/-- With `n = 4`, the store is guarded by `i < n`. -/
theorem fillC_guarded :
    legalize rangeAnalyzer (fun _ => 0) [] fillC =
        some (.forLoop 1 (.const 0) (.const 8) (.ifThen true (.lt (.var 1) (.var 0)) storeC)) ∧
      ∀ m, (Stmt.forLoop 1 (.const 0) (.const 8)
        (.ifThen true (.lt (.var 1) (.var 0)) storeC)).LeafSafe intAlg (fun _ => 4) m := by
  have hout : legalize rangeAnalyzer (fun _ => 0) [] fillC =
      some (.forLoop 1 (.const 0) (.const 8) (.ifThen true (.lt (.var 1) (.var 0)) storeC)) := rfl
  refine ⟨hout, fun m => (legalize_keeps ?_ ?_ hout nofun m).1⟩
  · exact ⟨nofun, nofun, nofun, trivial⟩
  · exact ⟨nofun, trivial, trivial, trivial⟩

/-- Beside a loop, it is not, and `C[4]` is written. -/
theorem fillBesideLoop_unguarded :
    legalize rangeAnalyzer (fun _ => 0) [] fillBesideLoop = some fillBesideLoop ∧
      ¬ fillBesideLoop.Safe intAlg (fun _ => 4) (fun _ _ => 0) := by
  refine ⟨rfl, fun h => ?_⟩
  obtain ⟨⟨-, -, hstore⟩, -⟩ := h.2.2 4 (by decide)
  obtain ⟨-, hupper⟩ := (hstore rfl rfl).1 nofun
  exact absurd hupper (by decide)

end TileLangNpuir.SafeMemory
