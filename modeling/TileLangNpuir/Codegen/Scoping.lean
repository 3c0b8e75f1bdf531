import TileLangNpuir.Codegen.Dev

/-!
# What a visit does to the generator

Every visitor keeps the number of layers, writes only the innermost one, creates
new SSA values only, and never changes the type a variable is bound at. These
facts are the fields of `Step`, proved once by induction over statements
(`visitStmt_step`); the inversion lemmas before it say what each visitor did.
-/

namespace TileLangNpuir.Codegen

variable {V : Type}

/-! ## New values -/

theorem length_freshValues (n : ℕ) (tys : List MType) :
    (freshValues n tys).length = tys.length := by
  induction tys generalizing n with
  | nil => rfl
  | cons t ts ih => simp [freshValues, ih]

theorem freshValues_id {n : ℕ} {tys : List MType} {x : MValue} (h : x ∈ freshValues n tys) :
    n ≤ x.id ∧ x.id < n + tys.length := by
  induction tys generalizing n with
  | nil => cases h
  | cons t ts ih =>
    rcases List.mem_cons.mp h with rfl | h
    · simp
    · have := ih h
      simp only [List.length_cons]
      omega

theorem map_ty_freshValues (n : ℕ) (tys : List MType) :
    (freshValues n tys).map MValue.ty = tys := by
  induction tys generalizing n with
  | nil => rfl
  | cons t ts ih => simp [freshValues, ih]

theorem nodup_freshValues (n : ℕ) (tys : List MType) :
    ((freshValues n tys).map MValue.id).Nodup := by
  induction tys generalizing n with
  | nil => exact List.nodup_nil
  | cons t ts ih =>
    refine List.nodup_cons.mpr ⟨fun h => ?_, ih (n + 1)⟩
    obtain ⟨x, hx, hid⟩ := List.mem_map.mp h
    have := (freshValues_id hx).1
    simp only at hid
    omega

namespace CodeGen

/-! ## The step relation -/

/-- The generator before and after a visit that passed `sets` to
`SetVarValue`. -/
structure Step (g : CodeGen) (sets : List Var) (g' : CodeGen) : Prop where
  tail : g'.varMap.tail = g.varMap.tail
  length : g'.varMap.length = g.varMap.length
  next_le : g.next ≤ g'.next
  coreType : g'.coreType = g.coreType
  types : ∀ v x, g.getVarValue v = some x → ∃ x', g'.getVarValue v = some x' ∧ x'.ty = x.ty
  frame : ∀ v, v ∉ sets → g'.getVarValue v = g.getVarValue v

theorem Step.trans {g₁ g₂ g₃ : CodeGen} {l l' : List Var} (h : Step g₁ l g₂)
    (h' : Step g₂ l' g₃) : Step g₁ (l ++ l') g₃ where
  tail := h'.tail.trans h.tail
  length := h'.length.trans h.length
  next_le := le_trans h.next_le h'.next_le
  coreType := h'.coreType.trans h.coreType
  types v x hx := by
    obtain ⟨y, hy, hty⟩ := h.types v x hx
    obtain ⟨z, hz, htz⟩ := h'.types v y hy
    exact ⟨z, hz, htz.trans hty⟩
  frame v hv := by
    rw [List.mem_append, not_or] at hv
    rw [h'.frame v hv.2, h.frame v hv.1]

theorem Step.mono {g g' : CodeGen} {l l' : List Var} (h : Step g l g') (hl : l ⊆ l') :
    Step g l' g' :=
  { h with frame := fun v hv => h.frame v fun hv' => hv (hl hv') }

/-- Emitting code changes the value counter only. -/
structure Emits (g g' : CodeGen) : Prop where
  varMap : g'.varMap = g.varMap
  coreType : g'.coreType = g.coreType
  next_le : g.next ≤ g'.next

theorem Emits.refl (g : CodeGen) : Emits g g := ⟨rfl, rfl, le_rfl⟩

theorem Emits.trans {g₁ g₂ g₃ : CodeGen} (h : Emits g₁ g₂) (h' : Emits g₂ g₃) :
    Emits g₁ g₃ :=
  ⟨h'.varMap.trans h.varMap, h'.coreType.trans h.coreType, le_trans h.next_le h'.next_le⟩

theorem Emits.getVarValue {g g' : CodeGen} (h : Emits g g') (v : Var) :
    g'.getVarValue v = g.getVarValue v := by
  rw [CodeGen.getVarValue, h.varMap, CodeGen.getVarValue]

theorem Emits.step {g g' : CodeGen} (h : Emits g g') : Step g [] g' where
  tail := by rw [h.varMap]
  length := by rw [h.varMap]
  next_le := h.next_le
  coreType := h.coreType
  types v x hx := ⟨x, by rw [h.getVarValue]; exact hx, rfl⟩
  frame v _ := h.getVarValue v

theorem collect_congr {g g' : CodeGen} (h : ∀ v, g'.getVarValue v = g.getVarValue v)
    (s : Stmt V) (vars : List Var) : g'.collect s vars = g.collect s vars := by
  have hvar : g'.checkVar = g.checkVar := by
    funext vars v
    simp only [checkVar, h]
  have htensor : g'.checkTensor = g.checkTensor := by
    funext vars v
    simp only [checkTensor, h, hvar]
  induction s generalizing vars with
  | seq s t ihs iht => simp only [collect, ihs, iht]
  | forLoop x mn ext body ih => simp only [collect, ih]
  | ifThen c t ih => simp only [collect, ih]
  | ifThenElse c t e iht ihe => simp only [collect, iht, ihe]
  | allocate buf scope body ih => simp only [collect, ih]
  | letStmt x value body ih => simp only [collect, ih]
  | bufferStore buf value indices => simp only [collect, htensor]
  | evaluate op args => cases op <;> simp only [collect, htensor, hvar]

/-! ## Bindings -/

theorem setVarValue_inv {g g' : CodeGen} {v : Var} {x : MValue}
    (h : g.setVarValue v x = some g') :
    ∃ m, g.varMap.set v x = some m ∧ g' = { g with varMap := m } := by
  obtain ⟨m, hm, rfl⟩ := Option.map_eq_some_iff.mp h
  exact ⟨m, hm, rfl⟩

theorem getVarValue_setVarValue {g g' : CodeGen} {v : Var} {x : MValue}
    (h : g.setVarValue v x = some g') (w : Var) :
    g'.getVarValue w = if w = v then some x else g.getVarValue w := by
  obtain ⟨m, hm, rfl⟩ := setVarValue_inv h
  exact Layers.get?_set hm w

theorem setVarValues_inv {g g' : CodeGen} {vars : List Var} {xs : List MValue}
    (h : g.setVarValues vars xs = some g') :
    ∃ m, g.varMap.setAll (vars.zip xs) = some m ∧ g' = { g with varMap := m } := by
  obtain ⟨m, hm, rfl⟩ := Option.map_eq_some_iff.mp h
  exact ⟨m, hm, rfl⟩

theorem getVarValue_setVarValues_of_notMem {g g' : CodeGen} {vars : List Var}
    {xs : List MValue} (h : g.setVarValues vars xs = some g') {v : Var} (hv : v ∉ vars) :
    g'.getVarValue v = g.getVarValue v := by
  obtain ⟨m, hm, rfl⟩ := setVarValues_inv h
  refine Layers.get?_setAll_of_notMem hm fun hmem => hv ?_
  obtain ⟨p, hp, rfl⟩ := List.mem_map.mp hmem
  exact (List.of_mem_zip hp).1

theorem getVarValue_setVarValues {g g' : CodeGen} {vars : List Var} {xs : List MValue}
    (h : g.setVarValues vars xs = some g') (hnd : vars.Nodup)
    (hlen : vars.length = xs.length) :
    List.Forall₂ (fun v x => g'.getVarValue v = some x) vars xs := by
  obtain ⟨m, hm, rfl⟩ := setVarValues_inv h
  refine List.forall₂_iff_zip.mpr ⟨hlen, fun {v x} hvx => ?_⟩
  refine Layers.get?_setAll_of_mem hm ?_ hvx
  rwa [List.map_fst_zip (Nat.le_of_eq hlen)]

theorem deleteVarLayer_inv {g g' : CodeGen} (h : g.deleteVarLayer = some g') :
    g' = { g with varMap := g.varMap.tail } := by
  obtain ⟨m, hm, rfl⟩ := Option.map_eq_some_iff.mp h
  rw [Layers.pop_eq_some hm]

/-- Binding a variable that was unbound, or bound at the same type, to a new
value is a step. -/
theorem step_setVarValue {g g' : CodeGen} {v : Var} {x : MValue}
    (h : g.setVarValue v x = some g')
    (hty : ∀ y, g.getVarValue v = some y → x.ty = y.ty) : Step g [v] g' := by
  have hget := getVarValue_setVarValue h
  obtain ⟨m, hm, rfl⟩ := setVarValue_inv h
  refine ⟨Layers.tail_set hm, Layers.length_set hm, le_rfl, rfl, ?_, ?_⟩
  · intro w y hy
    by_cases hw : w = v
    · subst hw
      exact ⟨x, by rw [hget, if_pos rfl], hty y hy⟩
    · exact ⟨y, by rw [hget, if_neg hw]; exact hy, rfl⟩
  · intro w hw
    rw [hget, if_neg (by simpa using hw)]

/-- `xs` has, for each variable of `vars`, a value of the type it is bound at. -/
def Retypes (g : CodeGen) (vars : List Var) (xs : List MValue) : Prop :=
  List.Forall₂ (fun v x => ∃ y, g.getVarValue v = some y ∧ x.ty = y.ty) vars xs

/-- Rebinding a list of variables at their types is a step. -/
theorem step_setVarValues {vars : List Var} :
    ∀ {xs : List MValue} {g g' : CodeGen}, g.setVarValues vars xs = some g' →
      g.Retypes vars xs → Step g vars g' := by
  induction vars with
  | nil =>
    intro xs g g' h _
    obtain ⟨m, hm, rfl⟩ := setVarValues_inv h
    obtain rfl := Option.some.inj hm
    exact (Emits.refl g).step
  | cons v vs ih =>
    intro xs g g' h hty
    cases hty with
    | @cons _ x _ xs hx hxs =>
      obtain ⟨y₀, hy₀, hxy⟩ := hx
      obtain ⟨m, hm, rfl⟩ := setVarValues_inv h
      obtain ⟨t, ht, hm'⟩ := Layers.setAll_cons_eq_some hm
      have hset : g.setVarValue v x = some { g with varMap := t } := by
        rw [setVarValue, ht]
        rfl
      have h₁ : Step g [v] { g with varMap := t } := by
        refine step_setVarValue hset ?_
        intro y hy
        rw [hy₀] at hy
        rw [← Option.some.inj hy, hxy]
      have h₂ : Step { g with varMap := t } vs { g with varMap := m } := by
        refine ih (Option.map_eq_some_iff.mpr ⟨m, hm', rfl⟩) ?_
        refine List.Forall₂.imp ?_ hxs
        rintro w z ⟨y, hy, hzy⟩
        obtain ⟨y', hy', hty'⟩ := h₁.types w y hy
        exact ⟨y', hy', hzy.trans hty'.symm⟩
      exact h₁.trans h₂

theorem retypes_freshValues {g : CodeGen} {vars : List Var} {inits : List MValue}
    (h : List.Forall₂ (fun v x => g.getVarValue v = some x) vars inits) (n : ℕ) :
    g.Retypes vars (freshValues n (inits.map MValue.ty)) := by
  induction h generalizing n with
  | nil => exact List.Forall₂.nil
  | cons hx _ ih => exact List.Forall₂.cons ⟨_, hx, rfl⟩ (ih (n + 1))

/-! ## Scalars and operands -/

theorem makeValue_inv {g : CodeGen} {e : PrimExpr V} {r : Lowered V ℕ}
    (h : g.makeValue e = some r) :
    ∃ xs, List.Forall₂ (fun v x => g.getVarValue v = some x) e.vars xs ∧
      r = ⟨.eval g.next e.eval (xs.map MValue.id), g.next, { g with next := g.next + 1 }⟩ := by
  obtain ⟨xs, hxs, hr⟩ := Option.bind_eq_some_iff.mp h
  exact ⟨xs, mapM_eq_some_iff.mp hxs, (Option.some.inj hr).symm⟩

theorem makeValue_emits {g : CodeGen} {e : PrimExpr V} {r : Lowered V ℕ}
    (h : g.makeValue e = some r) : Emits g r.state := by
  obtain ⟨xs, -, rfl⟩ := makeValue_inv h
  exact ⟨rfl, rfl, Nat.le_succ _⟩

theorem makeSum_inv {g : CodeGen} {a b : PrimExpr V} {r : Lowered V ℕ}
    (h : g.makeSum a b = some r) :
    ∃ x y, g.makeValue a = some x ∧ x.state.makeValue b = some y ∧
      r = ⟨.seq (.seq x.code y.code) (.addi y.state.next x.val y.val), y.state.next,
        { y.state with next := y.state.next + 1 }⟩ := by
  obtain ⟨x, hx, h⟩ := Option.bind_eq_some_iff.mp h
  obtain ⟨y, hy, h⟩ := Option.bind_eq_some_iff.mp h
  exact ⟨x, y, hx, hy, (Option.some.inj h).symm⟩

theorem makeSum_emits {g : CodeGen} {a b : PrimExpr V} {r : Lowered V ℕ}
    (h : g.makeSum a b = some r) : Emits g r.state := by
  obtain ⟨x, y, hx, hy, rfl⟩ := makeSum_inv h
  have hxy := (makeValue_emits hx).trans (makeValue_emits hy)
  exact ⟨hxy.varMap, hxy.coreType, le_trans hxy.next_le (Nat.le_succ _)⟩

theorem makeValues_cons_inv {g : CodeGen} {e : PrimExpr V} {es : List (PrimExpr V)}
    {r : Lowered V (List ℕ)} (h : g.makeValues (e :: es) = some r) :
    ∃ x xs, g.makeValue e = some x ∧ x.state.makeValues es = some xs ∧
      r = ⟨.seq x.code xs.code, x.val :: xs.val, xs.state⟩ := by
  obtain ⟨x, hx, h⟩ := Option.bind_eq_some_iff.mp h
  obtain ⟨xs, hxs, h⟩ := Option.bind_eq_some_iff.mp h
  exact ⟨x, xs, hx, hxs, (Option.some.inj h).symm⟩

theorem makeValues_emits {es : List (PrimExpr V)} :
    ∀ {g : CodeGen} {r : Lowered V (List ℕ)}, g.makeValues es = some r → Emits g r.state := by
  induction es with
  | nil =>
    intro g r h
    obtain rfl := Option.some.inj h
    exact Emits.refl g
  | cons e es ih =>
    intro g r h
    obtain ⟨x, xs, hx, hxs, rfl⟩ := makeValues_cons_inv h
    have hrest : Emits x.state xs.state := ih hxs
    exact (makeValue_emits hx).trans hrest

theorem makeArg_region_inv {g : CodeGen} {buf : Var} {bounds : List (PrimExpr V)}
    {r : Lowered V (List ℕ)} (h : g.makeArg (.region buf bounds) = some r) :
    ∃ b xs, g.getVarValue buf = some b ∧ g.makeValues bounds = some xs ∧
      r = ⟨xs.code, b.id :: xs.val, xs.state⟩ := by
  obtain ⟨b, hb, h⟩ := Option.bind_eq_some_iff.mp h
  obtain ⟨xs, hxs, h⟩ := Option.bind_eq_some_iff.mp h
  exact ⟨b, xs, hb, hxs, (Option.some.inj h).symm⟩

theorem makeArg_scalar_inv {g : CodeGen} {e : PrimExpr V} {r : Lowered V (List ℕ)}
    (h : g.makeArg (.scalar e) = some r) :
    ∃ x, g.makeValue e = some x ∧ r = ⟨x.code, [x.val], x.state⟩ := by
  obtain ⟨x, hx, h⟩ := Option.bind_eq_some_iff.mp h
  exact ⟨x, hx, (Option.some.inj h).symm⟩

theorem makeArg_emits {g : CodeGen} {a : Arg V} {r : Lowered V (List ℕ)}
    (h : g.makeArg a = some r) : Emits g r.state := by
  cases a with
  | region buf bounds =>
    obtain ⟨b, xs, -, hxs, rfl⟩ := makeArg_region_inv h
    have hbounds : Emits g xs.state := makeValues_emits hxs
    exact hbounds
  | scalar e =>
    obtain ⟨x, hx, rfl⟩ := makeArg_scalar_inv h
    exact makeValue_emits hx
  | str str =>
    obtain rfl := Option.some.inj h
    exact Emits.refl g

theorem makeArgs_cons_inv {g : CodeGen} {a : Arg V} {as : List (Arg V)}
    {r : Lowered V (List ℕ)} (h : g.makeArgs (a :: as) = some r) :
    ∃ x xs, g.makeArg a = some x ∧ x.state.makeArgs as = some xs ∧
      r = ⟨.seq x.code xs.code, x.val ++ xs.val, xs.state⟩ := by
  obtain ⟨x, hx, h⟩ := Option.bind_eq_some_iff.mp h
  obtain ⟨xs, hxs, h⟩ := Option.bind_eq_some_iff.mp h
  exact ⟨x, xs, hx, hxs, (Option.some.inj h).symm⟩

theorem makeArgs_emits {as : List (Arg V)} :
    ∀ {g : CodeGen} {r : Lowered V (List ℕ)}, g.makeArgs as = some r → Emits g r.state := by
  induction as with
  | nil =>
    intro g r h
    obtain rfl := Option.some.inj h
    exact Emits.refl g
  | cons a as ih =>
    intro g r h
    obtain ⟨x, xs, hx, hxs, rfl⟩ := makeArgs_cons_inv h
    have hrest : Emits x.state xs.state := ih hxs
    exact (makeArg_emits hx).trans hrest

/-! ## Tile calls -/

theorem guard_bind_eq_some {p : Prop} [Decidable p] {α : Type} {f : Unit → Option α} {a : α}
    (h : (guard p >>= f) = some a) : p ∧ f () = some a := by
  by_cases hp : p
  · rw [guard, if_pos hp] at h
    exact ⟨hp, h⟩
  · rw [guard, if_neg hp] at h
    cases h

theorem emitRebind_inv {g : CodeGen} {op : TileOp} {operands : List ℕ} {dsts : List Var}
    {r : Emitted V} (h : g.emitRebind op operands dsts = some r) :
    ∃ olds g', List.Forall₂ (fun v x => g.getVarValue v = some x) dsts olds ∧
      (∀ x ∈ olds, x.ty = .tensor) ∧
      ({ g with next := g.next + dsts.length } : CodeGen).setVarValues dsts
        (freshValues g.next (olds.map MValue.ty)) = some g' ∧
      r = ⟨.tile ((freshValues g.next (olds.map MValue.ty)).map MValue.id) op operands,
        dsts, g'⟩ := by
  obtain ⟨olds, holds, h⟩ := Option.bind_eq_some_iff.mp h
  obtain ⟨hty, h⟩ := guard_bind_eq_some h
  obtain ⟨g', hg', h⟩ := Option.bind_eq_some_iff.mp h
  refine ⟨olds, g', mapM_eq_some_iff.mp holds, ?_, hg', (Option.some.inj h).symm⟩
  simpa using hty

theorem emitRebind_step {g : CodeGen} {op : TileOp} {operands : List ℕ} {dsts : List Var}
    {r : Emitted V} (h : g.emitRebind op operands dsts = some r) :
    r.sets = dsts ∧ Step g r.sets r.state := by
  obtain ⟨olds, g', holds, -, hg', rfl⟩ := emitRebind_inv h
  refine ⟨rfl, ?_⟩
  have hg : Emits g { g with next := g.next + dsts.length } := ⟨rfl, rfl, Nat.le_add_right _ _⟩
  exact hg.step.trans (step_setVarValues hg' (retypes_freshValues holds _))

theorem emitInPlace_inv {g : CodeGen} {op : TileOp} {operands : List ℕ} {dst : Var}
    {r : Emitted V} (h : g.emitInPlace op operands dst = some r) :
    ∃ x, g.getVarValue dst = some x ∧ x.ty = .memref ∧ r = ⟨.inPlace op x.id operands, [], g⟩ := by
  obtain ⟨x, hx, h⟩ := Option.bind_eq_some_iff.mp h
  obtain ⟨hty, h⟩ := guard_bind_eq_some h
  exact ⟨x, hx, hty, (Option.some.inj h).symm⟩

/-- The two operands of a copy are the regions at its first two positions. -/
theorem buffersAt_zero_one {args : List (Arg V)} {src dst : Var}
    (h : buffersAt args [0, 1] = [src, dst]) : buffersAt args [1] = [dst] := by
  simp only [buffersAt, List.filterMap_cons, List.filterMap_nil] at h ⊢
  rcases h₀ : args[0]?.bind Arg.buffer? with _ | a <;>
    rcases h₁ : args[1]?.bind Arg.buffer? with _ | b <;>
    simp only [h₀, h₁] at h ⊢ <;> simp_all

/-- A call is lowered in one of three ways: its destinations are rebound, its
memref destination is written in place, or it is a select on something that is
no tensor and nothing happens. -/
theorem emitCall_inv {g : CodeGen} {op : TileOp} {args : List (Arg V)} {operands : List ℕ}
    {r : Emitted V} (h : g.emitCall op args operands = some r) :
    (op.inPlaceArg? = none ∧ g.emitRebind op operands (op.updates args) = some r) ∨
    (∃ dst, op.updates args = [dst] ∧ g.emitInPlace op operands dst = some r) ∨
    (op = .select ∧ r = ⟨.nil, [], g⟩ ∧
      ∃ dst x, op.updates args = [dst] ∧ g.getVarValue dst = some x ∧ x.ty ≠ .tensor) := by
  by_cases hcopy : op = .copy
  · subst hcopy
    simp only [emitCall] at h
    split at h
    · rename_i src dst hbufs
      have hdst : TileOp.copy.updates args = [dst] := buffersAt_zero_one hbufs
      rw [hdst]
      obtain ⟨s, hs, h⟩ := Option.bind_eq_some_iff.mp h
      obtain ⟨d, hd, h⟩ := Option.bind_eq_some_iff.mp h
      split at h
      · exact .inl ⟨rfl, h⟩
      · exact .inr (.inl ⟨dst, rfl, h⟩)
      · exact .inl ⟨rfl, h⟩
      · cases h
    · cases h
  by_cases hsel : op = .select
  · subst hsel
    simp only [emitCall] at h
    split at h
    · rename_i dst hbufs
      have hdst : TileOp.select.updates args = [dst] := hbufs
      rw [hdst]
      obtain ⟨d, hd, h⟩ := Option.bind_eq_some_iff.mp h
      by_cases hty : d.ty = .tensor
      · rw [if_pos hty] at h
        exact .inl ⟨rfl, h⟩
      · rw [if_neg hty] at h
        exact .inr (.inr ⟨rfl, (Option.some.inj h).symm, dst, d, rfl, hd, hty⟩)
    · cases h
  rcases hp : op.inPlaceArg? with _ | p
  · have hup : op.updates args = buffersAt args (op.rebindArgs args.length) := by
      simp only [TileOp.updates, hp]
    rw [hup]
    refine .inl ⟨rfl, ?_⟩
    cases op <;> first | exact absurd rfl hcopy | exact absurd rfl hsel | exact h | cases hp
  · have hup : op.updates args = buffersAt args [p] := by
      simp only [TileOp.updates, hp]
    have h' : ∃ dst, buffersAt args [p] = [dst] ∧ g.emitInPlace op operands dst = some r := by
      cases op <;> first
        | cases hp
          simp only [emitCall, TileOp.inPlaceArg?] at h
          split at h
          · exact ⟨_, ‹_›, h⟩
          · cases h
        | cases hp
    rw [hup]
    exact .inr (.inl h')

theorem visitCall_inv {g : CodeGen} {op : TileOp} {args : List (Arg V)} {r : Emitted V}
    (h : g.visitCall op args = some r) :
    ∃ xs c, g.makeArgs args = some xs ∧ xs.state.emitCall op args xs.val = some c ∧
      r = ⟨.seq xs.code c.code, c.sets, c.state⟩ := by
  obtain ⟨-, h⟩ := guard_bind_eq_some h
  obtain ⟨xs, hxs, h⟩ := Option.bind_eq_some_iff.mp h
  obtain ⟨c, hc, h⟩ := Option.bind_eq_some_iff.mp h
  exact ⟨xs, c, hxs, hc, (Option.some.inj h).symm⟩

theorem emitCall_step {g : CodeGen} {op : TileOp} {args : List (Arg V)} {operands : List ℕ}
    {r : Emitted V} (h : g.emitCall op args operands = some r) : Step g r.sets r.state := by
  rcases emitCall_inv h with ⟨-, h⟩ | ⟨dst, -, h⟩ | ⟨-, rfl, -⟩
  · exact (emitRebind_step h).2
  · obtain ⟨x, -, -, rfl⟩ := emitInPlace_inv h
    exact (Emits.refl g).step
  · exact (Emits.refl g).step

/-! ## Statements -/

theorem openFrame_inv {g g₁ : CodeGen} {carried : List Var} {f : Frame}
    (h : g.openFrame carried = some (f, g₁)) :
    f.carried = carried ∧ List.Forall₂ (fun v x => g.getVarValue v = some x) carried f.inits ∧
      f.results = freshValues g.next (f.inits.map MValue.ty) ∧
      g₁ = { g with next := g.next + carried.length } := by
  obtain ⟨inits, hinits, h⟩ := Option.bind_eq_some_iff.mp h
  obtain ⟨rfl, rfl⟩ := Prod.mk.inj (Option.some.inj h)
  exact ⟨rfl, mapM_eq_some_iff.mp hinits, rfl, rfl⟩

theorem enterFor_inv {g g₂ : CodeGen} {x : Var} {f : Frame} {iterArgs : List MValue}
    (h : g.enterFor x f = some (g₂, iterArgs)) :
    g.getVarValue x = none ∧ iterArgs = freshValues (g.next + 1) (f.inits.map MValue.ty) ∧
      ∃ g₁, ({ g with next := g.next + 1 + f.carried.length } : CodeGen).addVarLayer.setVarValue
          x ⟨g.next, .scalar⟩ = some g₁ ∧
        g₁.setVarValues f.carried iterArgs = some g₂ := by
  obtain ⟨hx, h⟩ := guard_bind_eq_some h
  obtain ⟨g₁, hg₁, h⟩ := Option.bind_eq_some_iff.mp h
  obtain ⟨g₂', hg₂, h⟩ := Option.bind_eq_some_iff.mp h
  obtain ⟨rfl, rfl⟩ := Prod.mk.inj (Option.some.inj h)
  exact ⟨hx, rfl, g₁, hg₁, hg₂⟩

theorem visitStmt_seq_inv {g : CodeGen} {s t : Stmt V} {r : Emitted V}
    (h : g.visitStmt (.seq s t) = some r) :
    ∃ a b, g.visitStmt s = some a ∧ a.state.visitStmt t = some b ∧
      r = ⟨.seq a.code b.code, a.sets ++ b.sets, b.state⟩ := by
  obtain ⟨a, ha, h⟩ := Option.bind_eq_some_iff.mp h
  obtain ⟨b, hb, h⟩ := Option.bind_eq_some_iff.mp h
  exact ⟨a, b, ha, hb, (Option.some.inj h).symm⟩

theorem visitStmt_forLoop_inv {g : CodeGen} {x : Var} {min extent : PrimExpr V}
    {body : Stmt V} {r : Emitted V} (h : g.visitStmt (.forLoop x min extent body) = some r) :
    ∃ lo hi f g₁ g₂ iterArgs b yields g₃, g.makeValue min = some lo ∧
      lo.state.makeSum extent min = some hi ∧
      hi.state.openFrame (hi.state.collect body []) = some (f, g₁) ∧
      g₁.enterFor x f = some (g₂, iterArgs) ∧ g₂.visitStmt body = some b ∧
      List.Forall₂ (fun v y => b.state.getVarValue v = some y) f.carried yields ∧
      b.state.leave f = some g₃ ∧
      r = ⟨.seq (.seq lo.code hi.code)
          (.forOp g₁.next lo.val hi.val (f.inits.map MValue.id) (iterArgs.map MValue.id)
            b.code (yields.map MValue.id) (f.results.map MValue.id)),
        x :: f.carried ++ b.sets ++ f.carried, g₃⟩ := by
  obtain ⟨lo, hlo, h⟩ := Option.bind_eq_some_iff.mp h
  obtain ⟨hi, hhi, h⟩ := Option.bind_eq_some_iff.mp h
  obtain ⟨⟨f, g₁⟩, hf, h⟩ := Option.bind_eq_some_iff.mp h
  obtain ⟨⟨g₂, iterArgs⟩, hg₂, h⟩ := Option.bind_eq_some_iff.mp h
  obtain ⟨b, hb, h⟩ := Option.bind_eq_some_iff.mp h
  obtain ⟨yields, hyields, h⟩ := Option.bind_eq_some_iff.mp h
  obtain ⟨g₃, hg₃, h⟩ := Option.bind_eq_some_iff.mp h
  exact ⟨lo, hi, f, g₁, g₂, iterArgs, b, yields, g₃, hlo, hhi, hf, hg₂, hb,
    mapM_eq_some_iff.mp hyields, hg₃, (Option.some.inj h).symm⟩

theorem visitStmt_ifThen_inv {g : CodeGen} {cond : PrimExpr V} {thenCase : Stmt V}
    {r : Emitted V} (h : g.visitStmt (.ifThen cond thenCase) = some r) :
    ∃ c f g₁ g₂ t yields g₃, g.makeValue cond = some c ∧
      c.state.openFrame (c.state.collect thenCase []) = some (f, g₁) ∧
      g₁.enterRegion f.carried f.inits = some g₂ ∧ g₂.visitStmt thenCase = some t ∧
      List.Forall₂ (fun v y => t.state.getVarValue v = some y) f.carried yields ∧
      t.state.leave f = some g₃ ∧
      r = ⟨.seq c.code
          (.ifOp c.val t.code (yields.map MValue.id) .nil (f.inits.map MValue.id)
            (f.results.map MValue.id)),
        f.carried ++ t.sets ++ f.carried, g₃⟩ := by
  obtain ⟨c, hc, h⟩ := Option.bind_eq_some_iff.mp h
  obtain ⟨⟨f, g₁⟩, hf, h⟩ := Option.bind_eq_some_iff.mp h
  obtain ⟨g₂, hg₂, h⟩ := Option.bind_eq_some_iff.mp h
  obtain ⟨t, ht, h⟩ := Option.bind_eq_some_iff.mp h
  obtain ⟨yields, hyields, h⟩ := Option.bind_eq_some_iff.mp h
  obtain ⟨g₃, hg₃, h⟩ := Option.bind_eq_some_iff.mp h
  exact ⟨c, f, g₁, g₂, t, yields, g₃, hc, hf, hg₂, ht, mapM_eq_some_iff.mp hyields, hg₃,
    (Option.some.inj h).symm⟩

theorem visitStmt_ifThenElse_inv {g : CodeGen} {cond : PrimExpr V} {thenCase elseCase : Stmt V}
    {r : Emitted V} (h : g.visitStmt (.ifThenElse cond thenCase elseCase) = some r) :
    ∃ c f g₁ g₂ t thenYields g₃ xs g₄ e elseYields g₅, g.makeValue cond = some c ∧
      c.state.openFrame (c.state.collect elseCase (c.state.collect thenCase [])) = some (f, g₁) ∧
      g₁.enterRegion f.carried f.inits = some g₂ ∧ g₂.visitStmt thenCase = some t ∧
      List.Forall₂ (fun v y => t.state.getVarValue v = some y) f.carried thenYields ∧
      t.state.deleteVarLayer = some g₃ ∧
      List.Forall₂ (fun v y => g₃.getVarValue v = some y) f.carried xs ∧
      g₃.enterRegion f.carried xs = some g₄ ∧ g₄.visitStmt elseCase = some e ∧
      List.Forall₂ (fun v y => e.state.getVarValue v = some y) f.carried elseYields ∧
      e.state.leave f = some g₅ ∧
      r = ⟨.seq c.code
          (.ifOp c.val t.code (thenYields.map MValue.id) e.code (elseYields.map MValue.id)
            (f.results.map MValue.id)),
        f.carried ++ t.sets ++ f.carried ++ e.sets ++ f.carried, g₅⟩ := by
  obtain ⟨c, hc, h⟩ := Option.bind_eq_some_iff.mp h
  obtain ⟨⟨f, g₁⟩, hf, h⟩ := Option.bind_eq_some_iff.mp h
  obtain ⟨g₂, hg₂, h⟩ := Option.bind_eq_some_iff.mp h
  obtain ⟨t, ht, h⟩ := Option.bind_eq_some_iff.mp h
  obtain ⟨thenYields, hty, h⟩ := Option.bind_eq_some_iff.mp h
  obtain ⟨g₃, hg₃, h⟩ := Option.bind_eq_some_iff.mp h
  obtain ⟨xs, hxs, h⟩ := Option.bind_eq_some_iff.mp h
  obtain ⟨g₄, hg₄, h⟩ := Option.bind_eq_some_iff.mp h
  obtain ⟨e, he, h⟩ := Option.bind_eq_some_iff.mp h
  obtain ⟨elseYields, hey, h⟩ := Option.bind_eq_some_iff.mp h
  obtain ⟨g₅, hg₅, h⟩ := Option.bind_eq_some_iff.mp h
  exact ⟨c, f, g₁, g₂, t, thenYields, g₃, xs, g₄, e, elseYields, g₅, hc, hf, hg₂, ht,
    mapM_eq_some_iff.mp hty, hg₃, mapM_eq_some_iff.mp hxs, hg₄, he, mapM_eq_some_iff.mp hey,
    hg₅, (Option.some.inj h).symm⟩

/-- An allocation either binds its buffer to a new tensor or, on the wrong core,
leaves it unbound. -/
theorem visitStmt_allocate_inv {g : CodeGen} {buf : Var} {scope : StorageScope} {body : Stmt V}
    {r : Emitted V} (h : g.visitStmt (.allocate buf scope body) = some r) :
    ((scope.coreType? = none ∨ scope.coreType? = some g.coreType) ∧
      g.getVarValue buf = none ∧ ∃ g₁ b,
      ({ g with next := g.next + 1 } : CodeGen).setVarValue buf ⟨g.next, .tensor⟩ = some g₁ ∧
      g₁.visitStmt body = some b ∧
      r = ⟨.seq (.empty g.next buf) b.code, buf :: b.sets, b.state⟩) ∨
    (¬ (scope.coreType? = none ∨ scope.coreType? = some g.coreType) ∧
      g.visitStmt body = some r) := by
  change ite (scope.coreType? = none ∨ scope.coreType? = some g.coreType) _ _ = some r at h
  by_cases hcore : scope.coreType? = none ∨ scope.coreType? = some g.coreType
  · rw [if_pos hcore] at h
    left
    obtain ⟨hbuf, h⟩ := guard_bind_eq_some h
    obtain ⟨g₁, hg₁, h⟩ := Option.bind_eq_some_iff.mp h
    obtain ⟨b, hb, h⟩ := Option.bind_eq_some_iff.mp h
    exact ⟨hcore, hbuf, g₁, b, hg₁, hb, (Option.some.inj h).symm⟩
  · rw [if_neg hcore] at h
    exact .inr ⟨hcore, h⟩

theorem visitStmt_letStmt_inv {g : CodeGen} {x : Var} {value : PrimExpr V} {body : Stmt V}
    {r : Emitted V} (h : g.visitStmt (.letStmt x value body) = some r) :
    g.getVarValue x = none ∧ ∃ v g₁ b, g.makeValue value = some v ∧
      v.state.setVarValue x ⟨v.val, .scalar⟩ = some g₁ ∧ g₁.visitStmt body = some b ∧
      r = ⟨.seq v.code b.code, x :: b.sets, b.state⟩ := by
  obtain ⟨hx, h⟩ := guard_bind_eq_some h
  obtain ⟨v, hv, h⟩ := Option.bind_eq_some_iff.mp h
  obtain ⟨g₁, hg₁, h⟩ := Option.bind_eq_some_iff.mp h
  obtain ⟨b, hb, h⟩ := Option.bind_eq_some_iff.mp h
  exact ⟨hx, v, g₁, b, hv, hg₁, hb, (Option.some.inj h).symm⟩

/-- A store updates a memref in place and rebinds a tensor. -/
theorem visitStmt_bufferStore_inv {g : CodeGen} {buf : Var} {value : PrimExpr V}
    {indices : List (PrimExpr V)} {r : Emitted V}
    (h : g.visitStmt (.bufferStore buf value indices) = some r) :
    ∃ m v is, g.getVarValue buf = some m ∧ g.makeValue value = some v ∧
      v.state.makeValues indices = some is ∧
      ((m.ty = .memref ∧
        r = ⟨.seq (.seq v.code is.code) (.store m.id v.val is.val), [], is.state⟩) ∨
       (m.ty = .tensor ∧ ∃ g₁,
        ({ is.state with next := is.state.next + 1 } : CodeGen).setVarValue buf
          ⟨is.state.next, .tensor⟩ = some g₁ ∧
        r = ⟨.seq (.seq v.code is.code) (.insert is.state.next m.id v.val is.val), [buf], g₁⟩)) := by
  obtain ⟨m, hm, h⟩ := Option.bind_eq_some_iff.mp h
  obtain ⟨v, hv, h⟩ := Option.bind_eq_some_iff.mp h
  obtain ⟨is, his, h⟩ := Option.bind_eq_some_iff.mp h
  refine ⟨m, v, is, hm, hv, his, ?_⟩
  split at h
  · rename_i hty
    exact .inl ⟨hty, (Option.some.inj h).symm⟩
  · rename_i hty
    obtain ⟨g₁, hg₁, h⟩ := Option.bind_eq_some_iff.mp h
    exact .inr ⟨hty, g₁, hg₁, (Option.some.inj h).symm⟩
  · cases h

/-! ## Regions -/

@[simp] theorem getVarValue_addVarLayer (g : CodeGen) (v : Var) :
    g.addVarLayer.getVarValue v = g.getVarValue v :=
  Layers.get?_push g.varMap v

theorem openFrame_emits {g g₁ : CodeGen} {carried : List Var} {f : Frame}
    (h : g.openFrame carried = some (f, g₁)) : Emits g g₁ := by
  obtain ⟨-, -, -, rfl⟩ := openFrame_inv h
  exact ⟨rfl, rfl, Nat.le_add_right _ _⟩

/-- A frame's initial values are the current ones, and its results are new values
of the same types. -/
structure Frame.Fits (f : Frame) (g : CodeGen) : Prop where
  inits : List.Forall₂ (fun v x => g.getVarValue v = some x) f.carried f.inits
  results : g.Retypes f.carried f.results
  results_lt : ∀ x ∈ f.results, x.id < g.next

theorem openFrame_fits {g g₁ : CodeGen} {carried : List Var} {f : Frame}
    (h : g.openFrame carried = some (f, g₁)) : f.Fits g₁ := by
  obtain ⟨rfl, hinits, hresults, rfl⟩ := openFrame_inv h
  refine ⟨hinits, ?_, ?_⟩
  · rw [hresults]
    exact retypes_freshValues hinits _
  · intro x hx
    rw [hresults] at hx
    have := (freshValues_id hx).2
    rwa [List.length_map, ← hinits.length_eq] at this

/-- Entering a loop body is a step from the state with a new empty layer. -/
theorem enterFor_step {g g₂ : CodeGen} {x : Var} {f : Frame} {iterArgs : List MValue}
    (hf : f.Fits g) (h : g.enterFor x f = some (g₂, iterArgs)) :
    Step g.addVarLayer (x :: f.carried) g₂ := by
  obtain ⟨hx, rfl, g₁, hg₁, hg₂⟩ := enterFor_inv h
  have hemit : Emits g.addVarLayer
      ({ g with next := g.next + 1 + f.carried.length } : CodeGen).addVarLayer :=
    ⟨rfl, rfl, by simp only [addVarLayer]; omega⟩
  have hstep₁ : Step ({ g with next := g.next + 1 + f.carried.length } : CodeGen).addVarLayer
      [x] g₁ := by
    refine step_setVarValue hg₁ ?_
    intro y hy
    rw [hemit.getVarValue, getVarValue_addVarLayer, hx] at hy
    cases hy
  have hstep₂ : Step g₁ f.carried g₂ := by
    refine step_setVarValues hg₂ ?_
    -- the carried variables are bound outside, so they are not the loop variable
    refine List.Forall₂.imp ?_ (retypes_freshValues hf.inits (g.next + 1))
    rintro v y ⟨z, hz, hyz⟩
    obtain ⟨z', hz', htz⟩ := (hemit.step.trans hstep₁).types v z (by simpa using hz)
    exact ⟨z', hz', hyz.trans htz.symm⟩
  exact (hemit.step.trans hstep₁).trans hstep₂

/-- Entering a branch rebinds the carried variables to what they are bound to. -/
theorem enterRegion_step {g g₂ : CodeGen} {carried : List Var} {xs : List MValue}
    (hxs : List.Forall₂ (fun v x => g.getVarValue v = some x) carried xs)
    (h : g.enterRegion carried xs = some g₂) : Step g.addVarLayer carried g₂ := by
  exact step_setVarValues h
    (List.Forall₂.imp (fun v x hv => ⟨x, by simpa using hv, rfl⟩) hxs)

/-- Deleting a layer leaves the bindings from before it. -/
theorem delete_emits {g b g₃ : CodeGen} {l : List Var} (hbody : Step g.addVarLayer l b)
    (h : b.deleteVarLayer = some g₃) : Emits g g₃ := by
  obtain rfl := deleteVarLayer_inv h
  exact ⟨hbody.tail, hbody.coreType, hbody.next_le⟩

/-- Leaving a region forgets its layer and binds the carried variables to the
results. -/
theorem leave_step {g b g₃ : CodeGen} {f : Frame} {l : List Var} (hf : f.Fits g)
    (hbody : Step g.addVarLayer l b) (h : b.leave f = some g₃) : Step g f.carried g₃ := by
  obtain ⟨g', hg', h⟩ := Option.bind_eq_some_iff.mp h
  have hemit := delete_emits hbody hg'
  refine hemit.step.trans (step_setVarValues h (List.Forall₂.imp ?_ hf.results))
  rintro v x ⟨y, hy, hxy⟩
  exact ⟨y, by rw [hemit.getVarValue]; exact hy, hxy⟩

/-- What every visit does to the generator. -/
theorem visitStmt_step {s : Stmt V} :
    ∀ {g : CodeGen} {r : Emitted V}, g.visitStmt s = some r → Step g r.sets r.state := by
  induction s with
  | seq s t ihs iht =>
    intro g r h
    obtain ⟨a, b, ha, hb, rfl⟩ := visitStmt_seq_inv h
    exact (ihs ha).trans (iht hb)
  | forLoop x mn ext body ih =>
    intro g r h
    obtain ⟨lo, hi, f, g₁, g₂, iterArgs, b, yields, g₃, hlo, hhi, hf, hg₂, hb, -, hg₃, rfl⟩ :=
      visitStmt_forLoop_inv h
    have hemit : Emits g g₁ :=
      ((makeValue_emits hlo).trans (makeSum_emits hhi)).trans (openFrame_emits hf)
    have hbody := (enterFor_step (openFrame_fits hf) hg₂).trans (ih hb)
    refine (hemit.step.trans (leave_step (openFrame_fits hf) hbody hg₃)).mono ?_
    exact List.subset_append_right _ _
  | ifThen c t iht =>
    intro g r h
    obtain ⟨c, f, g₁, g₂, t, yields, g₃, hc, hf, hg₂, ht, -, hg₃, rfl⟩ := visitStmt_ifThen_inv h
    have hemit : Emits g g₁ := (makeValue_emits hc).trans (openFrame_emits hf)
    have hbody := (enterRegion_step (openFrame_fits hf).inits hg₂).trans (iht ht)
    refine (hemit.step.trans (leave_step (openFrame_fits hf) hbody hg₃)).mono ?_
    exact List.subset_append_right _ _
  | ifThenElse c t e iht ihe =>
    intro g r h
    obtain ⟨c, f, g₁, g₂, t, thenYields, g₃, xs, g₄, e, elseYields, g₅, hc, hf, hg₂, ht, -, hg₃,
      hxs, hg₄, he, -, hg₅, rfl⟩ := visitStmt_ifThenElse_inv h
    have hemit : Emits g g₁ := (makeValue_emits hc).trans (openFrame_emits hf)
    have hthen := (enterRegion_step (openFrame_fits hf).inits hg₂).trans (iht ht)
    have helse := (enterRegion_step hxs hg₄).trans (ihe he)
    have hdel := delete_emits hthen hg₃
    have hmid : Emits g₁.addVarLayer g₃.addVarLayer :=
      ⟨congrArg Layers.push hdel.varMap, hdel.coreType, hdel.next_le⟩
    refine (hemit.step.trans
      (leave_step (openFrame_fits hf) (hmid.step.trans helse) hg₅)).mono ?_
    exact List.subset_append_right _ _
  | allocate buf scope body ih =>
    intro g r h
    rcases visitStmt_allocate_inv h with ⟨-, hbuf, g₁, b, hg₁, hb, rfl⟩ | ⟨-, h⟩
    · have hemit : Emits g { g with next := g.next + 1 } := ⟨rfl, rfl, Nat.le_succ _⟩
      have hset : Step { g with next := g.next + 1 } [buf] g₁ := by
        refine step_setVarValue hg₁ ?_
        intro y hy
        rw [hemit.getVarValue, hbuf] at hy
        cases hy
      exact (hemit.step.trans hset).trans (ih hb)
    · exact ih h
  | letStmt x value body ih =>
    intro g r h
    obtain ⟨hx, v, g₁, b, hv, hg₁, hb, rfl⟩ := visitStmt_letStmt_inv h
    have hset : Step v.state [x] g₁ := by
      refine step_setVarValue hg₁ ?_
      intro y hy
      rw [(makeValue_emits hv).getVarValue, hx] at hy
      cases hy
    exact ((makeValue_emits hv).step.trans hset).trans (ih hb)
  | bufferStore buf value indices =>
    intro g r h
    obtain ⟨m, v, is, hm, hv, his, ⟨-, rfl⟩ | ⟨hty, g₁, hg₁, rfl⟩⟩ := visitStmt_bufferStore_inv h
    · exact ((makeValue_emits hv).trans (makeValues_emits his)).step
    · have hemit : Emits g { is.state with next := is.state.next + 1 } :=
        ((makeValue_emits hv).trans (makeValues_emits his)).trans ⟨rfl, rfl, Nat.le_succ _⟩
      refine hemit.step.trans (step_setVarValue hg₁ ?_)
      intro y hy
      rw [hemit.getVarValue, hm] at hy
      rw [← Option.some.inj hy, hty]
  | evaluate op args =>
    intro g r h
    obtain ⟨xs, c, hxs, hc, rfl⟩ := visitCall_inv h
    exact (makeArgs_emits hxs).step.trans (emitCall_step hc)

/-- The state between the two branches is the one before them, with more values
created. -/
theorem deleteThen_emits {g₀ g₁ g₂ g₃ : CodeGen} {carried : List Var} {f : Frame}
    {thenCase : Stmt V} {t : Emitted V} (hf : g₀.openFrame carried = some (f, g₁))
    (hg₂ : g₁.enterRegion f.carried f.inits = some g₂) (ht : g₂.visitStmt thenCase = some t)
    (hg₃ : t.state.deleteVarLayer = some g₃) : Emits g₁ g₃ :=
  delete_emits ((enterRegion_step (openFrame_fits hf).inits hg₂).trans (visitStmt_step ht)) hg₃

end CodeGen

end TileLangNpuir.Codegen
