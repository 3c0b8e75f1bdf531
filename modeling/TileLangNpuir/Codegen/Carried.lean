import TileLangNpuir.Codegen.Scoping

/-!
# What `LoopCarriedVarCollector` carries

The collector lists, op by op, which buffers a body writes; the code generators
call `SetVarValue` on their own. `Stmt.named` is what the collector looks at in a
body, `Stmt.dropped` what the ops it does not know rebind. A loop or a branch
keeps every update of an outer tensor exactly when nothing is only dropped
(`bodyVisit_keeps_updates_iff`).
-/

namespace TileLangNpuir.Codegen

variable {V : Type}

namespace Stmt

/-- The buffers the collector passes to `CheckVar` in a statement. -/
def named : Stmt V → List Var
  | .seq s t => s.named ++ t.named
  | .forLoop _ _ _ body => body.named
  | .ifThen _ thenCase => thenCase.named
  | .ifThenElse _ thenCase elseCase => thenCase.named ++ elseCase.named
  | .allocate _ _ body => body.named
  | .letStmt _ _ body => body.named
  | .bufferStore buf _ _ => [buf]
  | .evaluate .copy args => buffersAt args [1]
  | .evaluate op args => buffersAt args op.collectedArgs

/-- The destinations of the rebinding ops the collector has no case for. -/
def dropped : Stmt V → List Var
  | .seq s t => s.dropped ++ t.dropped
  | .forLoop _ _ _ body => body.dropped
  | .ifThen _ thenCase => thenCase.dropped
  | .ifThenElse _ thenCase elseCase => thenCase.dropped ++ elseCase.dropped
  | .allocate _ _ body => body.dropped
  | .letStmt _ _ body => body.dropped
  | .bufferStore _ _ _ => []
  | .evaluate op args =>
    if op.collectedArgs = [] then buffersAt args (op.rebindArgs args.length) else []

/-- The statements a `For` or an `IfThenElse` visits in a new layer. -/
def bodies : Stmt V → List (Stmt V)
  | .forLoop _ _ _ body => [body]
  | .ifThen _ thenCase => [thenCase]
  | .ifThenElse _ thenCase elseCase => [thenCase, elseCase]
  | _ => []

end Stmt

/-- Every listed op is listed with all its destinations. -/
theorem TileOp.rebindArgs_subset_collectedArgs (op : TileOp) (n : ℕ)
    (h : op.collectedArgs ≠ []) : op.rebindArgs n ⊆ op.collectedArgs := by
  cases op <;> first | exact absurd rfl h | simp [TileOp.rebindArgs, TileOp.collectedArgs]

theorem buffersAt_mono {args : List (Arg V)} {p q : List ℕ} (h : p ⊆ q) :
    buffersAt args p ⊆ buffersAt args q := by
  intro v hv
  obtain ⟨i, hi, hbuf⟩ := List.mem_filterMap.mp hv
  exact List.mem_filterMap.mpr ⟨i, h hi, hbuf⟩

namespace CodeGen

/-! ## The collector -/

theorem mem_checkVar {g : CodeGen} {vars : List Var} {v w : Var} :
    w ∈ g.checkVar vars v ↔ w ∈ vars ∨ (w = v ∧ (g.getVarValue v).isSome) := by
  rw [checkVar]
  split
  · rename_i h
    rw [List.mem_append, List.mem_singleton, and_iff_left h.1]
  · rename_i h
    refine ⟨Or.inl, ?_⟩
    rintro (hw | ⟨rfl, hsome⟩)
    · exact hw
    · by_contra hw
      exact h ⟨hsome, hw⟩

theorem mem_checkTensor {g : CodeGen} {vars : List Var} {v w : Var} :
    w ∈ g.checkTensor vars v ↔ w ∈ vars ∨ (w = v ∧ g.IsTensor v) := by
  rw [checkTensor]
  split
  · rename_i x hx
    have hT : g.IsTensor v ↔ x.ty = .tensor := by
      constructor
      · rintro ⟨y, hy, hty⟩
        rw [hx] at hy
        rw [Option.some.inj hy, hty]
      · exact fun hty => ⟨x, hx, hty⟩
    by_cases hty : x.ty = .tensor
    · rw [if_pos hty, mem_checkVar, hT, hx]
      simp [hty]
    · rw [if_neg hty, hT]
      simp [hty]
  · rename_i hx
    refine ⟨Or.inl, ?_⟩
    rintro (hw | ⟨rfl, y, hy, -⟩)
    · exact hw
    · rw [hx] at hy
      cases hy

theorem mem_foldl_check {check : List Var → Var → List Var} {P : Var → Prop}
    (hcheck : ∀ vars v w, w ∈ check vars v ↔ w ∈ vars ∨ (w = v ∧ P v)) {vs : List Var} :
    ∀ {vars : List Var} {w : Var},
      w ∈ vs.foldl check vars ↔ w ∈ vars ∨ (w ∈ vs ∧ P w) := by
  induction vs with
  | nil => simp
  | cons v vs ih =>
    intro vars w
    rw [List.foldl_cons, ih, hcheck, List.mem_cons]
    constructor
    · rintro ((hw | ⟨rfl, hv⟩) | ⟨hw, hP⟩)
      · exact .inl hw
      · exact .inr ⟨.inl rfl, hv⟩
      · exact .inr ⟨.inr hw, hP⟩
    · rintro (hw | ⟨rfl | hw, hP⟩)
      · exact .inl (.inl hw)
      · exact .inl (.inr ⟨rfl, hP⟩)
      · exact .inr ⟨hw, hP⟩

/-- What the collector adds on a tile call. -/
theorem collect_evaluate (g : CodeGen) (op : TileOp) (args : List (Arg V)) (vars : List Var) :
    ∃ P : Var → Prop, (∀ w, g.IsTensor w → P w) ∧
      ∀ w, w ∈ g.collect (.evaluate op args) vars ↔
        w ∈ vars ∨ (w ∈ (Stmt.evaluate op args).named ∧ P w) := by
  have hbound : ∀ w, g.IsTensor w → (g.getVarValue w).isSome := by
    rintro w ⟨x, hx, -⟩
    rw [hx]
    rfl
  by_cases hcopy : op = .copy
  · subst hcopy
    exact ⟨g.IsTensor, fun _ => id, fun w => mem_foldl_check fun _ _ _ => mem_checkTensor⟩
  · refine ⟨fun w => (g.getVarValue w).isSome, hbound, fun w => ?_⟩
    have hcollect : g.collect (.evaluate op args) vars =
        (buffersAt args op.collectedArgs).foldl g.checkVar vars := by
      cases op <;> first | exact absurd rfl hcopy | rfl
    have hnamed : (Stmt.evaluate op args).named = buffersAt args op.collectedArgs := by
      cases op <;> first | exact absurd rfl hcopy | rfl
    rw [hcollect, hnamed]
    exact mem_foldl_check fun _ _ _ => mem_checkVar

/-- The collector keeps what it has found and adds only what it looks at. -/
theorem mem_collect_imp {g : CodeGen} {s : Stmt V} :
    ∀ {vars : List Var} {v : Var}, v ∈ g.collect s vars → v ∈ vars ∨ v ∈ s.named := by
  induction s with
  | seq s t ihs iht =>
    intro vars v h
    rw [Stmt.named, List.mem_append]
    rcases iht h with h | h
    · exact (ihs h).imp_right .inl
    · exact .inr (.inr h)
  | forLoop x mn ext body ih => exact ih
  | ifThen c t ih => exact ih
  | ifThenElse c t e iht ihe =>
    intro vars v h
    rw [Stmt.named, List.mem_append]
    rcases ihe h with h | h
    · exact (iht h).imp_right .inl
    · exact .inr (.inr h)
  | allocate buf scope body ih => exact ih
  | letStmt x value body ih => exact ih
  | bufferStore buf value indices =>
    intro vars v h
    rcases mem_checkTensor.mp h with h | ⟨rfl, -⟩
    · exact .inl h
    · exact .inr List.mem_cons_self
  | evaluate op args =>
    intro vars v h
    obtain ⟨P, -, hmem⟩ := collect_evaluate g op args vars
    exact ((hmem v).mp h).imp_right And.left

/-- Every outer tensor the collector looks at is collected. -/
theorem mem_collect_of_isTensor {g : CodeGen} {v : Var} (hv : g.IsTensor v) {s : Stmt V} :
    ∀ {vars : List Var}, v ∈ vars ∨ v ∈ s.named → v ∈ g.collect s vars := by
  induction s with
  | seq s t ihs iht =>
    intro vars h
    rw [Stmt.named, List.mem_append, ← or_assoc] at h
    exact iht (h.imp_left ihs)
  | forLoop x mn ext body ih => exact ih
  | ifThen c t ih => exact ih
  | ifThenElse c t e iht ihe =>
    intro vars h
    rw [Stmt.named, List.mem_append, ← or_assoc] at h
    exact ihe (h.imp_left iht)
  | allocate buf scope body ih => exact ih
  | letStmt x value body ih => exact ih
  | bufferStore buf value indices =>
    intro vars h
    refine mem_checkTensor.mpr (h.imp_right fun h => ?_)
    obtain rfl := List.mem_singleton.mp h
    exact ⟨rfl, hv⟩
  | evaluate op args =>
    intro vars h
    obtain ⟨P, hP, hmem⟩ := collect_evaluate g op args vars
    exact (hmem v).mpr (h.imp_right fun h => ⟨h, hP v hv⟩)

theorem nodup_checkVar {g : CodeGen} {vars : List Var} {v : Var} (h : vars.Nodup) :
    (g.checkVar vars v).Nodup := by
  rw [checkVar]
  split
  · rename_i hv
    refine List.nodup_append.mpr ⟨h, by simp, fun a ha b hb => ?_⟩
    rw [List.mem_singleton.mp hb]
    exact fun hab => hv.2 (hab ▸ ha)
  · exact h

theorem nodup_checkTensor {g : CodeGen} {vars : List Var} {v : Var} (h : vars.Nodup) :
    (g.checkTensor vars v).Nodup := by
  rw [checkTensor]
  split
  · split
    · exact nodup_checkVar h
    · exact h
  · exact h

theorem nodup_foldl_check {check : List Var → Var → List Var}
    (hcheck : ∀ vars v, vars.Nodup → (check vars v).Nodup) {vs : List Var} :
    ∀ {vars : List Var}, vars.Nodup → (vs.foldl check vars).Nodup := by
  induction vs with
  | nil => exact id
  | cons v vs ih => exact fun h => ih (hcheck _ v h)

/-- A variable is carried once. -/
theorem nodup_collect {g : CodeGen} {s : Stmt V} :
    ∀ {vars : List Var}, vars.Nodup → (g.collect s vars).Nodup := by
  induction s with
  | seq s t ihs iht => exact fun h => iht (ihs h)
  | forLoop x mn ext body ih => exact ih
  | ifThen c t ih => exact ih
  | ifThenElse c t e iht ihe => exact fun h => ihe (iht h)
  | allocate buf scope body ih => exact ih
  | letStmt x value body ih => exact ih
  | bufferStore buf value indices => exact nodup_checkTensor
  | evaluate op args =>
    intro vars h
    cases op <;>
      first
        | exact nodup_foldl_check (fun _ _ => nodup_checkTensor) h
        | exact nodup_foldl_check (fun _ _ => nodup_checkVar) h

/-! ## The visitors -/

theorem Step.isTensor {g g' : CodeGen} {l : List Var} (h : Step g l g') {v : Var}
    (hv : g.IsTensor v) : g'.IsTensor v := by
  obtain ⟨x, hx, hty⟩ := hv
  obtain ⟨x', hx', hty'⟩ := h.types v x hx
  exact ⟨x', hx', hty'.trans hty⟩

theorem IsTensor.ne_of_unbound {g : CodeGen} {v w : Var} (hv : g.IsTensor v)
    (hw : g.getVarValue w = none) : v ≠ w := by
  rintro rfl
  obtain ⟨x, hx, -⟩ := hv
  rw [hw] at hx
  cases hx

theorem isTensor_addVarLayer {g : CodeGen} {v : Var} (hv : g.IsTensor v) :
    g.addVarLayer.IsTensor v := by
  obtain ⟨x, hx, hty⟩ := hv
  exact ⟨x, by rw [getVarValue_addVarLayer, hx], hty⟩

/-- An outer tensor a call rebinds is in one of the two lists. -/
theorem visitCall_sets_imp {g : CodeGen} {op : TileOp} {args : List (Arg V)} {r : Emitted V}
    (h : g.visitCall op args = some r) {v : Var} (hv : v ∈ r.sets) :
    v ∈ (Stmt.evaluate op args).named ∨ v ∈ (Stmt.evaluate op args).dropped := by
  obtain ⟨xs, c, -, hc, rfl⟩ := visitCall_inv h
  rcases emitCall_inv hc with ⟨hp, hc⟩ | ⟨dst, -, hc⟩ | ⟨-, rfl, -⟩
  · have hv' : v ∈ op.updates args := (emitRebind_step hc).1 ▸ hv
    by_cases hcopy : op = .copy
    · subst hcopy
      exact .inl hv'
    have hup : op.updates args = buffersAt args (op.rebindArgs args.length) := by
      simp only [TileOp.updates, hp]
    rw [hup] at hv'
    by_cases hnil : op.collectedArgs = []
    · exact .inr (by rw [Stmt.dropped, if_pos hnil]; exact hv')
    · left
      have hnamed : (Stmt.evaluate op args).named = buffersAt args op.collectedArgs := by
        cases op <;> first | exact absurd rfl hcopy | rfl
      rw [hnamed]
      exact buffersAt_mono (op.rebindArgs_subset_collectedArgs _ hnil) hv'
  · obtain ⟨x, -, -, rfl⟩ := emitInPlace_inv hc
    cases hv
  · cases hv

/-- A call rebinds every tensor it is said to drop. -/
theorem visitCall_dropped_sets {g : CodeGen} {op : TileOp} {args : List (Arg V)}
    {r : Emitted V} (h : g.visitCall op args = some r) {v : Var} (hT : g.IsTensor v)
    (hv : v ∈ (Stmt.evaluate op args).dropped) : v ∈ r.sets := by
  obtain ⟨xs, c, hxs, hc, rfl⟩ := visitCall_inv h
  have hT' : xs.state.IsTensor v := (makeArgs_emits hxs).step.isTensor hT
  rw [Stmt.dropped] at hv
  split at hv
  · have hup : v ∈ op.updates args := by
      cases op <;> first | exact hv | simp [TileOp.rebindArgs, buffersAt] at hv
    have hnot : ∀ dst x, op.updates args = [dst] → xs.state.getVarValue dst = some x →
        x.ty ≠ .tensor → False := by
      intro dst x hdst hx hne
      rw [hdst, List.mem_singleton] at hup
      obtain ⟨y, hy, hty⟩ := hT'
      rw [hup, hx] at hy
      exact hne (by rw [Option.some.inj hy, hty])
    rcases emitCall_inv hc with ⟨-, hc⟩ | ⟨dst, hdst, hc⟩ | ⟨-, -, dst, x, hdst, hx, hne⟩
    · rw [(emitRebind_step hc).1]
      exact hup
    · obtain ⟨x, hx, hty, -⟩ := emitInPlace_inv hc
      exact absurd (hnot dst x hdst hx (by rw [hty]; decide)) id
    · exact absurd (hnot dst x hdst hx hne) id
  · cases hv

/-- A body visited below `g`: the outer tensors are still tensors where it is
entered, and `b` is what its visit produced. -/
def VisitedBelow (g : CodeGen) (s : Stmt V) (b : Emitted V) : Prop :=
  ∃ g₂ : CodeGen, (∀ v, g.IsTensor v → g₂.IsTensor v) ∧ g₂.visitStmt s = some b

theorem enterFor_visited {g g' g₁ g₂ : CodeGen} {x : Var} {f : Frame} {carried : List Var}
    {iterArgs : List MValue} {body : Stmt V} {b : Emitted V} (hg : Emits g g')
    (hf : g'.openFrame carried = some (f, g₁)) (h : g₁.enterFor x f = some (g₂, iterArgs))
    (hb : g₂.visitStmt body = some b) : g.VisitedBelow body b := by
  refine ⟨g₂, fun v hv => ?_, hb⟩
  have hv₁ : g₁.IsTensor v := (hg.trans (openFrame_emits hf)).step.isTensor hv
  exact (enterFor_step (openFrame_fits hf) h).isTensor (isTensor_addVarLayer hv₁)

theorem enterRegion_visited {g g₁ g₂ : CodeGen} {carried : List Var} {xs : List MValue}
    {body : Stmt V} {b : Emitted V} (hg : ∀ v, g.IsTensor v → g₁.IsTensor v)
    (hxs : List.Forall₂ (fun v x => g₁.getVarValue v = some x) carried xs)
    (h : g₁.enterRegion carried xs = some g₂) (hb : g₂.visitStmt body = some b) :
    g.VisitedBelow body b := by
  refine ⟨g₂, fun v hv => ?_, hb⟩
  exact (enterRegion_step hxs h).isTensor (isTensor_addVarLayer (hg v hv))

/-- The carried list of a `For` or an `IfThenElse`, and what the visits of its
bodies passed to `SetVarValue`. -/
structure BodyVisit : Type where
  /-- `loop_carried_vars` or `if_carried_vars` -/
  carried : List Var
  /-- the variables the bodies rebind -/
  sets : List Var
  /-- the generator at the entry of each body -/
  entries : List CodeGen

/-- Visit the bodies of a `For` or an `IfThenElse`, as `visitStmt` does. -/
def bodyVisit (g : CodeGen) : Stmt V → Option BodyVisit
  | .forLoop x min extent body => do
    let lo ← g.makeValue min
    let hi ← lo.state.makeSum extent min
    let (f, g₁) ← hi.state.openFrame (hi.state.collect body [])
    let (g₂, _) ← g₁.enterFor x f
    let b ← g₂.visitStmt body
    some ⟨f.carried, b.sets, [g₂]⟩
  | .ifThen cond thenCase => do
    let c ← g.makeValue cond
    let (f, g₁) ← c.state.openFrame (c.state.collect thenCase [])
    let g₂ ← g₁.enterRegion f.carried f.inits
    let t ← g₂.visitStmt thenCase
    some ⟨f.carried, t.sets, [g₂]⟩
  | .ifThenElse cond thenCase elseCase => do
    let c ← g.makeValue cond
    let (f, g₁) ← c.state.openFrame (c.state.collect elseCase (c.state.collect thenCase []))
    let g₂ ← g₁.enterRegion f.carried f.inits
    let t ← g₂.visitStmt thenCase
    let g₃ ← t.state.deleteVarLayer
    let xs ← f.carried.mapM g₃.getVarValue
    let g₄ ← g₃.enterRegion f.carried xs
    let e ← g₄.visitStmt elseCase
    some ⟨f.carried, t.sets ++ e.sets, [g₂, g₄]⟩
  | _ => none

section

variable {g g₁ g₂ g₃ g₄ : CodeGen} {f : Frame} {lo hi c : Lowered V ℕ} {b t e : Emitted V}

theorem bodyVisit_forLoop {x : Var} {min extent : PrimExpr V} {body : Stmt V}
    {iterArgs : List MValue} (hlo : g.makeValue min = some lo)
    (hhi : lo.state.makeSum extent min = some hi)
    (hf : hi.state.openFrame (hi.state.collect body []) = some (f, g₁))
    (hg₂ : g₁.enterFor x f = some (g₂, iterArgs)) (hb : g₂.visitStmt body = some b) :
    g.bodyVisit (.forLoop x min extent body) = some ⟨f.carried, b.sets, [g₂]⟩ := by
  simp [bodyVisit, hlo, hhi, hf, hg₂, hb]

theorem bodyVisit_ifThen {cond : PrimExpr V} {thenCase : Stmt V}
    (hc : g.makeValue cond = some c)
    (hf : c.state.openFrame (c.state.collect thenCase []) = some (f, g₁))
    (hg₂ : g₁.enterRegion f.carried f.inits = some g₂) (ht : g₂.visitStmt thenCase = some t) :
    g.bodyVisit (.ifThen cond thenCase) = some ⟨f.carried, t.sets, [g₂]⟩ := by
  simp [bodyVisit, hc, hf, hg₂, ht]

theorem bodyVisit_ifThenElse {cond : PrimExpr V} {thenCase elseCase : Stmt V}
    {xs : List MValue} (hc : g.makeValue cond = some c)
    (hf : c.state.openFrame (c.state.collect elseCase (c.state.collect thenCase [])) =
      some (f, g₁))
    (hg₂ : g₁.enterRegion f.carried f.inits = some g₂) (ht : g₂.visitStmt thenCase = some t)
    (hg₃ : t.state.deleteVarLayer = some g₃)
    (hxs : List.Forall₂ (fun v y => g₃.getVarValue v = some y) f.carried xs)
    (hg₄ : g₃.enterRegion f.carried xs = some g₄) (he : g₄.visitStmt elseCase = some e) :
    g.bodyVisit (.ifThenElse cond thenCase elseCase) =
      some ⟨f.carried, t.sets ++ e.sets, [g₂, g₄]⟩ := by
  simp [bodyVisit, hc, hf, hg₂, ht, hg₃, mapM_eq_some_iff.mpr hxs, hg₄, he]

end

/-- What the visit of a `For` or an `IfThenElse` comes to: the collector's list,
and one visit per body. -/
structure Visited (g : CodeGen) (bodies : List (Stmt V)) (bv : BodyVisit) : Prop where
  carried : ∀ v, g.IsTensor v → (v ∈ bv.carried ↔ v ∈ bodies.flatMap Stmt.named)
  bodies : ∃ bs, List.Forall₂ g.VisitedBelow bodies bs ∧ bv.sets = bs.flatMap Emitted.sets

theorem mem_collect_iff {g g' : CodeGen} (hg : Emits g g') {s : Stmt V} {vars : List Var} {v : Var}
    (hv : g.IsTensor v) : v ∈ g'.collect s vars ↔ v ∈ vars ∨ v ∈ s.named :=
  ⟨mem_collect_imp, mem_collect_of_isTensor (hg.step.isTensor hv)⟩

theorem bodyVisit_visited {g : CodeGen} {node : Stmt V} {bv : BodyVisit}
    (h : g.bodyVisit node = some bv) : g.Visited node.bodies bv := by
  cases node with
  | forLoop x mn ext body =>
    obtain ⟨lo, hlo, h⟩ := Option.bind_eq_some_iff.mp h
    obtain ⟨hi, hhi, h⟩ := Option.bind_eq_some_iff.mp h
    obtain ⟨⟨f, g₁⟩, hf, h⟩ := Option.bind_eq_some_iff.mp h
    obtain ⟨⟨g₂, iterArgs⟩, hg₂, h⟩ := Option.bind_eq_some_iff.mp h
    obtain ⟨b, hb, h⟩ := Option.bind_eq_some_iff.mp h
    obtain rfl := Option.some.inj h
    have hemit : Emits g hi.state := (makeValue_emits hlo).trans (makeSum_emits hhi)
    have hbody : g.VisitedBelow body b := enterFor_visited hemit hf hg₂ hb
    refine ⟨fun v hv => ?_, [b], .cons hbody .nil, by simp⟩
    rw [(openFrame_inv hf).1, mem_collect_iff hemit hv]
    simp [Stmt.bodies]
  | ifThen c t =>
    obtain ⟨c, hc, h⟩ := Option.bind_eq_some_iff.mp h
    obtain ⟨⟨f, g₁⟩, hf, h⟩ := Option.bind_eq_some_iff.mp h
    obtain ⟨g₂, hg₂, h⟩ := Option.bind_eq_some_iff.mp h
    obtain ⟨t', ht, h⟩ := Option.bind_eq_some_iff.mp h
    obtain rfl := Option.some.inj h
    have hemit := (makeValue_emits hc).trans (openFrame_emits hf)
    have hbody : g.VisitedBelow t t' :=
      enterRegion_visited (fun v => hemit.step.isTensor) (openFrame_fits hf).inits hg₂ ht
    refine ⟨fun v hv => ?_, [t'], .cons hbody .nil, by simp⟩
    rw [(openFrame_inv hf).1, mem_collect_iff (makeValue_emits hc) hv]
    simp [Stmt.bodies]
  | ifThenElse c t e =>
    obtain ⟨c, hc, h⟩ := Option.bind_eq_some_iff.mp h
    obtain ⟨⟨f, g₁⟩, hf, h⟩ := Option.bind_eq_some_iff.mp h
    obtain ⟨g₂, hg₂, h⟩ := Option.bind_eq_some_iff.mp h
    obtain ⟨t', ht, h⟩ := Option.bind_eq_some_iff.mp h
    obtain ⟨g₃, hg₃, h⟩ := Option.bind_eq_some_iff.mp h
    obtain ⟨xs, hxs, h⟩ := Option.bind_eq_some_iff.mp h
    obtain ⟨g₄, hg₄, h⟩ := Option.bind_eq_some_iff.mp h
    obtain ⟨e', he, h⟩ := Option.bind_eq_some_iff.mp h
    obtain rfl := Option.some.inj h
    have hemit := (makeValue_emits hc).trans (openFrame_emits hf)
    have hthen : g.VisitedBelow t t' :=
      enterRegion_visited (fun v => hemit.step.isTensor) (openFrame_fits hf).inits hg₂ ht
    have hmid := deleteThen_emits hf hg₂ ht hg₃
    have helse : g.VisitedBelow e e' :=
      enterRegion_visited (fun v => (hemit.trans hmid).step.isTensor)
        (mapM_eq_some_iff.mp hxs) hg₄ he
    refine ⟨fun v hv => ?_, [t', e'], .cons hthen (.cons helse .nil), by simp⟩
    rw [(openFrame_inv hf).1, mem_collect_iff (makeValue_emits hc) hv,
      mem_collect_iff (makeValue_emits hc) hv]
    simp [Stmt.bodies]
  | seq s t => cases h
  | allocate buf scope body => cases h
  | letStmt x value body => cases h
  | bufferStore buf value indices => cases h
  | evaluate op args => cases h

/-- A completed visit of a `For` or an `IfThenElse` rebinds, among the outer
tensors, what it carries and what its bodies rebind. -/
theorem bodyVisit_of_visitStmt {g : CodeGen} {node : Stmt V} {r : Emitted V}
    (h : g.visitStmt node = some r) (hnode : node.bodies ≠ []) :
    ∃ bv, g.bodyVisit node = some bv ∧
      ∀ v, g.IsTensor v → (v ∈ r.sets ↔ v ∈ bv.carried ∨ v ∈ bv.sets) := by
  cases node with
  | forLoop x mn ext body =>
    obtain ⟨lo, hi, f, g₁, g₂, iterArgs, b, yields, g₃, hlo, hhi, hf, hg₂, hb, -, -, rfl⟩ :=
      visitStmt_forLoop_inv h
    refine ⟨⟨f.carried, b.sets, [g₂]⟩, bodyVisit_forLoop hlo hhi hf hg₂ hb, fun v hv => ?_⟩
    have hemit := ((makeValue_emits hlo).trans (makeSum_emits hhi)).trans (openFrame_emits hf)
    have hne : v ≠ x :=
      hv.ne_of_unbound (by rw [← hemit.getVarValue]; exact (enterFor_inv hg₂).1)
    simp only [List.mem_append, List.mem_cons, hne, false_or]
    tauto
  | ifThen c t =>
    obtain ⟨c, f, g₁, g₂, t', yields, g₃, hc, hf, hg₂, ht, -, -, rfl⟩ := visitStmt_ifThen_inv h
    refine ⟨⟨f.carried, t'.sets, [g₂]⟩, bodyVisit_ifThen hc hf hg₂ ht, fun v _ => ?_⟩
    simp only [List.mem_append]
    tauto
  | ifThenElse c t e =>
    obtain ⟨c, f, g₁, g₂, t', thenYields, g₃, xs, g₄, e', elseYields, g₅, hc, hf, hg₂, ht, -, hg₃,
      hxs, hg₄, he, -, -, rfl⟩ := visitStmt_ifThenElse_inv h
    refine ⟨⟨f.carried, t'.sets ++ e'.sets, [g₂, g₄]⟩,
      bodyVisit_ifThenElse hc hf hg₂ ht hg₃ hxs hg₄ he, fun v _ => ?_⟩
    simp only [List.mem_append]
    tauto
  | seq s t => exact absurd rfl hnode
  | allocate buf scope body => exact absurd rfl hnode
  | letStmt x value body => exact absurd rfl hnode
  | bufferStore buf value indices => exact absurd rfl hnode
  | evaluate op args => exact absurd rfl hnode

/-- Among the outer tensors, every visit of the statement rebinds at least the
dropped ones and at most the named and dropped ones. -/
def Accounts (s : Stmt V) (v : Var) : Prop :=
  ∀ (g : CodeGen) (r : Emitted V), g.IsTensor v → g.visitStmt s = some r →
    (v ∈ r.sets → v ∈ s.named ∨ v ∈ s.dropped) ∧ (v ∈ s.dropped → v ∈ r.sets)

theorem Visited.accounts {g : CodeGen} {bodies : List (Stmt V)} {bv : BodyVisit} {v : Var}
    (h : g.Visited bodies bv) (hv : g.IsTensor v) (hacc : ∀ s ∈ bodies, Accounts s v) :
    (v ∈ bv.sets → v ∈ bodies.flatMap Stmt.named ∨ v ∈ bodies.flatMap Stmt.dropped) ∧
      (v ∈ bodies.flatMap Stmt.dropped → v ∈ bv.sets) := by
  obtain ⟨bs, hbs, hsets⟩ := h.bodies
  rw [hsets]
  clear hsets h
  induction hbs with
  | nil => simp
  | @cons s b ss bs hs _ ih =>
    obtain ⟨g₂, hg₂, hb⟩ := hs
    have hs := hacc s List.mem_cons_self g₂ b (hg₂ v hv) hb
    have hrest := ih fun s' hs' => hacc s' (List.mem_cons_of_mem _ hs')
    simp only [List.flatMap_cons, List.mem_append]
    refine ⟨?_, Or.imp hs.2 hrest.2⟩
    rintro (h | h)
    · exact (hs.1 h).imp .inl .inl
    · exact (hrest.1 h).imp .inr .inr

/-- A statement with bodies accounts for its updates when its bodies do. -/
theorem accounts_of_bodies {node : Stmt V} {v : Var} (hnode : node.bodies ≠ [])
    (hnamed : node.named = node.bodies.flatMap Stmt.named)
    (hdropped : node.dropped = node.bodies.flatMap Stmt.dropped)
    (hacc : ∀ s ∈ node.bodies, Accounts s v) : Accounts node v := by
  intro g r hv h
  obtain ⟨bv, hbv, hsets⟩ := bodyVisit_of_visitStmt h hnode
  have hvis := bodyVisit_visited hbv
  have hbodies := hvis.accounts hv hacc
  rw [hsets v hv, hvis.carried v hv, hnamed, hdropped]
  refine ⟨?_, fun h => .inr (hbodies.2 h)⟩
  rintro (h | h)
  · exact .inl h
  · exact hbodies.1 h

theorem visitStmt_accounts (s : Stmt V) (v : Var) : Accounts s v := by
  induction s with
  | seq s t ihs iht =>
    intro g r hv h
    obtain ⟨a, b, ha, hb, rfl⟩ := visitStmt_seq_inv h
    have hs := ihs g a hv ha
    have ht := iht a.state b ((visitStmt_step ha).isTensor hv) hb
    simp only [Stmt.named, Stmt.dropped, List.mem_append]
    refine ⟨?_, Or.imp hs.2 ht.2⟩
    rintro (h | h)
    · exact (hs.1 h).imp .inl .inl
    · exact (ht.1 h).imp .inr .inr
  | forLoop x mn ext body ih =>
    refine accounts_of_bodies (by simp [Stmt.bodies]) (by simp [Stmt.bodies, Stmt.named])
      (by simp [Stmt.bodies, Stmt.dropped]) ?_
    intro s hs
    obtain rfl := List.mem_singleton.mp hs
    exact ih
  | ifThen c t ih =>
    refine accounts_of_bodies (by simp [Stmt.bodies]) (by simp [Stmt.bodies, Stmt.named])
      (by simp [Stmt.bodies, Stmt.dropped]) ?_
    intro s hs
    obtain rfl := List.mem_singleton.mp hs
    exact ih
  | ifThenElse c t e iht ihe =>
    refine accounts_of_bodies (by simp [Stmt.bodies]) (by simp [Stmt.bodies, Stmt.named])
      (by simp [Stmt.bodies, Stmt.dropped]) ?_
    intro s hs
    simp only [Stmt.bodies, List.mem_cons, List.not_mem_nil, or_false] at hs
    rcases hs with rfl | rfl
    · exact iht
    · exact ihe
  | allocate buf scope body ih =>
    intro g r hv h
    rcases visitStmt_allocate_inv h with ⟨-, hbuf, g₁, b, hg₁, hb, rfl⟩ | ⟨-, h⟩
    · have hne : v ≠ buf := hv.ne_of_unbound hbuf
      have hv₁ : g₁.IsTensor v := by
        obtain ⟨x, hx, hty⟩ := hv
        exact ⟨x, by rw [getVarValue_setVarValue hg₁, if_neg hne]; exact hx, hty⟩
      have hbody := ih g₁ b hv₁ hb
      simp only [Stmt.named, Stmt.dropped, List.mem_cons, hne, false_or]
      exact hbody
    · exact ih g r hv h
  | letStmt x value body ih =>
    intro g r hv h
    obtain ⟨hx, w, g₁, b, hw, hg₁, hb, rfl⟩ := visitStmt_letStmt_inv h
    have hne : v ≠ x := hv.ne_of_unbound hx
    have hv₁ : g₁.IsTensor v := by
      obtain ⟨y, hy, hty⟩ := (makeValue_emits hw).step.isTensor hv
      exact ⟨y, by rw [getVarValue_setVarValue hg₁, if_neg hne]; exact hy, hty⟩
    have hbody := ih g₁ b hv₁ hb
    simp only [Stmt.named, Stmt.dropped, List.mem_cons, hne, false_or]
    exact hbody
  | bufferStore buf value indices =>
    intro g r _ h
    obtain ⟨m, w, is, -, -, -, ⟨-, rfl⟩ | ⟨-, g₁, -, rfl⟩⟩ := visitStmt_bufferStore_inv h
    · simp [Stmt.dropped]
    · simp [Stmt.named, Stmt.dropped]
  | evaluate op args =>
    intro g r hv h
    exact ⟨visitCall_sets_imp h, visitCall_dropped_sets h hv⟩

/-- No update of an outer tensor made in a loop or a branch is lost: what the
bodies rebind is carried. -/
def KeepsUpdates (g : CodeGen) (bv : BodyVisit) : Prop :=
  ∀ v, g.IsTensor v → v ∈ bv.sets → v ∈ bv.carried

/-- A loop or a branch keeps the updates of the outer tensors exactly when each
outer tensor that an op unknown to the collector writes in a body is also named
by the collector there. -/
theorem bodyVisit_keeps_updates_iff {g : CodeGen} {node : Stmt V} {bv : BodyVisit}
    (h : g.bodyVisit node = some bv) :
    g.KeepsUpdates bv ↔
      ∀ v, g.IsTensor v → v ∈ node.bodies.flatMap Stmt.dropped →
        v ∈ node.bodies.flatMap Stmt.named := by
  have hvis := bodyVisit_visited h
  refine forall_congr' fun v => forall_congr' fun hv => ?_
  have hacc := hvis.accounts hv fun s _ => visitStmt_accounts s v
  rw [hvis.carried v hv]
  exact ⟨fun h hd => h (hacc.2 hd), fun h hs => (hacc.1 hs).elim id h⟩

/-- A kernel body in which buffer `0` is bound to a tensor. -/
def oneTensor : CodeGen := ⟨[[(0, ⟨0, .tensor⟩)]], 1, .aiv⟩

/-- `if c: T.npuir_brc(0, buf)`, on its own or followed by `buf += buf`. -/
def brcInBranch (addAfter : Bool) : Stmt ℤ :=
  let region : Arg ℤ := .region 0 []
  let brc : Stmt ℤ := .evaluate .brc [.scalar ⟨[], fun _ => 0⟩, region]
  .ifThen ⟨[], fun _ => 1⟩
    (if addAfter then .seq brc (.evaluate .add [region, region, region]) else brc)

/-- With a listed op on the same buffer, the broadcast is carried too. -/
theorem brcInBranch_keeps_updates :
    ∃ bv, oneTensor.bodyVisit (brcInBranch true) = some bv ∧ bv.sets = [0, 0] ∧
      oneTensor.KeepsUpdates bv := by
  obtain ⟨entries, hbv⟩ : ∃ entries,
      oneTensor.bodyVisit (brcInBranch true) = some ⟨[0], [0, 0], entries⟩ := ⟨_, rfl⟩
  refine ⟨_, hbv, rfl, (bodyVisit_keeps_updates_iff hbv).mpr ?_⟩
  intro v _ hv
  simpa [brcInBranch, Stmt.bodies, Stmt.dropped, Stmt.named, buffersAt, TileOp.collectedArgs,
    TileOp.rebindArgs, Arg.buffer?] using hv

/-- Alone in a branch it is rebound there and lost. -/
theorem brcInBranch_loses_update :
    ∃ bv, oneTensor.bodyVisit (brcInBranch false) = some bv ∧ ¬ oneTensor.KeepsUpdates bv := by
  refine ⟨_, rfl, fun h => ?_⟩
  exact List.not_mem_nil (h 0 ⟨⟨0, .tensor⟩, rfl, rfl⟩ List.mem_cons_self)

end CodeGen

end TileLangNpuir.Codegen
