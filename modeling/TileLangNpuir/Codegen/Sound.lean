import TileLangNpuir.Codegen.Carried
import Mathlib.Algebra.Ring.Int.Defs

/-!
# SSA construction preserves the meaning of a statement

`Sim g m σ` relates the generator, the machine that has run the code emitted so
far, and the store of the imperative program: the value a variable is bound to
denotes what the variable holds. Every visitor keeps it (`visitStmt_sim`), given
that loops and branches carry what their bodies rebind.

A body runs below a new layer. When the layer is deleted, a variable that is not
carried falls back to its old binding, so the proof needs that this old SSA value
was not overwritten (`Agree`) and still denotes the right contents (`holds_kept`).
-/

namespace TileLangNpuir.Codegen

variable {V : Type}

/-- `x` denotes the contents of `v` in `σ`: as data, or as a reference to memory
that holds them. -/
def Holds (m : Machine V) (σ : Store V) (v : Var) (x : MValue) : Prop :=
  if x.ty = .memref then m.env x.id = .ref v ∧ m.mem v = σ v else m.env x.id = .data (σ v)

/-- The machines agree on the SSA values below `n`. -/
def Agree (n : ℕ) (m m' : Machine V) : Prop := ∀ id < n, m'.env id = m.env id

namespace Agree

theorem refl (n : ℕ) (m : Machine V) : Agree n m m := fun _ _ => rfl

theorem trans {n n' : ℕ} {m₁ m₂ m₃ : Machine V} (h : Agree n m₁ m₂) (hn : n ≤ n')
    (h' : Agree n' m₂ m₃) : Agree n m₁ m₃ :=
  fun id hid => (h' id (lt_of_lt_of_le hid hn)).trans (h id hid)

theorem define {n id : ℕ} (h : n ≤ id) (m : Machine V) (x : MVal V) :
    Agree n m (m.define id x) :=
  fun _ hid' => Machine.env_define_of_ne (Nat.ne_of_lt (lt_of_lt_of_le hid' h))

theorem assign {n : ℕ} {targets : List ℕ} (h : ∀ t ∈ targets, n ≤ t) (m : Machine V)
    (sources : List ℕ) : Agree n m (m.assign targets sources) :=
  fun _ hid => Machine.env_assign_of_notMem fun hmem => absurd (h _ hmem) (Nat.not_le.mpr hid)

end Agree

theorem Holds.deref {m : Machine V} {σ : Store V} {v : Var} {x : MValue} (h : Holds m σ v x) :
    m.deref x.id = σ v := by
  rw [Holds] at h
  split at h
  · rw [Machine.deref, h.1]
    exact h.2
  · rw [Machine.deref, h]

/-- Only the value itself, the memory of `v` and the contents of `v` matter. -/
theorem Holds.congr {m m' : Machine V} {σ σ' : Store V} {v : Var} {x : MValue}
    (h : Holds m σ v x) (henv : m'.env x.id = m.env x.id) (hmem : m'.mem v = m.mem v)
    (hσ : σ' v = σ v) : Holds m' σ' v x := by
  rw [Holds, henv, hmem, hσ]
  exact h

/-- A value of the same type with the same run-time value denotes the same. -/
theorem Holds.copy {m m' : Machine V} {σ : Store V} {v : Var} {x y : MValue}
    (h : Holds m σ v x) (hty : y.ty = x.ty) (henv : m'.env y.id = m.env x.id)
    (hmem : m'.mem = m.mem) : Holds m' σ v y := by
  rw [Holds, henv, hmem, hty]
  exact h

theorem holds_of_data {m : Machine V} {σ : Store V} {v : Var} {x : MValue}
    (hty : x.ty ≠ .memref) (h : m.env x.id = .data (σ v)) : Holds m σ v x := by
  rw [Holds, if_neg hty]
  exact h

namespace CodeGen

/-- Every binding is an existing value that denotes the contents of its
variable. -/
def Sim (g : CodeGen) (m : Machine V) (σ : Store V) : Prop :=
  ∀ v x, g.getVarValue v = some x → x.id < g.next ∧ Holds m σ v x

/-- Code that only defines new values keeps every binding. -/
theorem Sim.emits {g g' : CodeGen} {m m' : Machine V} {σ : Store V} (h : Sim g m σ)
    (hg : Emits g g') (henv : Agree g.next m m') (hmem : m'.mem = m.mem) : Sim g' m' σ := by
  intro v x hx
  rw [hg.getVarValue] at hx
  obtain ⟨hlt, hx⟩ := h v x hx
  exact ⟨lt_of_lt_of_le hlt hg.next_le, hx.congr (henv x.id hlt) (by rw [hmem]) rfl⟩

/-- Binding a variable to a new value with its new contents. -/
theorem Sim.define_set {g g' : CodeGen} {m : Machine V} {σ : Store V} {v : Var} {ty : MType}
    {a : V} (h : Sim g m σ)
    (hset : ({ g with next := g.next + 1 } : CodeGen).setVarValue v ⟨g.next, ty⟩ = some g')
    (hty : ty ≠ .memref) :
    Sim g' (m.define g.next (.data a)) (Function.update σ v a) := by
  intro w x hx
  have hnext : g'.next = g.next + 1 := by
    obtain ⟨l, -, rfl⟩ := setVarValue_inv hset
    rfl
  rw [getVarValue_setVarValue hset] at hx
  by_cases hw : w = v
  · rw [if_pos hw] at hx
    obtain rfl := Option.some.inj hx
    refine ⟨by rw [hnext]; exact Nat.lt_succ_self _, holds_of_data hty ?_⟩
    rw [Machine.env_define_self, hw, Function.update_self]
  · rw [if_neg hw] at hx
    obtain ⟨hlt, hx⟩ := h w x hx
    refine ⟨by rw [hnext]; exact Nat.lt_succ_of_lt hlt, ?_⟩
    exact hx.congr (Machine.env_define_of_ne (Nat.ne_of_lt hlt)) rfl
      (Function.update_of_ne hw _ _)

/-- A write to memory through the memref bound to `v`. -/
theorem Sim.write {g : CodeGen} {m : Machine V} {σ : Store V} {v : Var} {x : MValue} {a : V}
    (h : Sim g m σ) (hv : g.getVarValue v = some x) (hty : x.ty = .memref) :
    Sim g (m.write v a) (Function.update σ v a) := by
  intro w y hy
  obtain ⟨hlt, hold⟩ := h w y hy
  refine ⟨hlt, ?_⟩
  by_cases hw : w = v
  · subst hw
    rw [hv] at hy
    obtain rfl := Option.some.inj hy
    rw [Holds, if_pos hty] at hold ⊢
    exact ⟨hold.1, by rw [Machine.mem_write, if_pos rfl, Function.update_self]⟩
  · exact hold.congr rfl (by rw [Machine.mem_write, if_neg hw]) (Function.update_of_ne hw _ _)

/-! ## Scalars and operands -/

/-- What lowering an operand leaves: only new values are defined, and the
bindings still denote the store. -/
structure LowersTo (g : CodeGen) (m : Machine V) (σ : Store V) (g' : CodeGen)
    (m' : Machine V) : Prop where
  sim : Sim g' m' σ
  next_le : g.next ≤ g'.next
  agree : Agree g.next m m'
  mem : m'.mem = m.mem

theorem LowersTo.refl {g : CodeGen} {m : Machine V} {σ : Store V} (h : Sim g m σ) :
    LowersTo g m σ g m :=
  ⟨h, le_rfl, Agree.refl _ _, rfl⟩

theorem LowersTo.trans {g₁ g₂ g₃ : CodeGen} {m₁ m₂ m₃ : Machine V} {σ : Store V}
    (h : LowersTo g₁ m₁ σ g₂ m₂) (h' : LowersTo g₂ m₂ σ g₃ m₃) : LowersTo g₁ m₁ σ g₃ m₃ :=
  ⟨h'.sim, le_trans h.next_le h'.next_le, h.agree.trans h.next_le h'.agree,
    h'.mem.trans h.mem⟩

/-- Later lowering does not change what an existing value stands for. -/
theorem LowersTo.deref {g g' : CodeGen} {m m' : Machine V} {σ : Store V}
    (h : LowersTo g m σ g' m') {id : ℕ} (hid : id < g.next) : m'.deref id = m.deref id := by
  rw [Machine.deref, Machine.deref, h.agree id hid, h.mem]

theorem deref_operands {g : CodeGen} {m : Machine V} {σ : Store V} {vars : List Var}
    {xs : List MValue} (hsim : Sim g m σ)
    (hxs : List.Forall₂ (fun v x => g.getVarValue v = some x) vars xs) :
    (xs.map MValue.id).map m.deref = vars.map σ := by
  induction hxs with
  | nil => rfl
  | @cons v x vars xs hx _ ih =>
    rw [List.map_cons, List.map_cons, List.map_cons, ih, (hsim v x hx).2.deref]

/-- The value of a lowered scalar, and where it is. -/
theorem makeValue_sim (S : Sem V) {g : CodeGen} {e : PrimExpr V} {r : Lowered V ℕ}
    {m : Machine V} {σ : Store V} (h : g.makeValue e = some r) (hsim : Sim g m σ) :
    LowersTo g m σ r.state (r.code.exec S m) ∧ r.val < r.state.next ∧
      (r.code.exec S m).env r.val = .data (e.value σ) := by
  have hemits := makeValue_emits h
  obtain ⟨xs, hxs, rfl⟩ := makeValue_inv h
  have hagree : Agree g.next m (m.define g.next (.data (e.eval ((xs.map MValue.id).map m.deref)))) :=
    Agree.define le_rfl _ _
  refine ⟨⟨hsim.emits hemits hagree rfl, hemits.next_le, hagree, rfl⟩, Nat.lt_succ_self _, ?_⟩
  rw [Mlir.exec, Machine.env_define_self, deref_operands hsim hxs, PrimExpr.value]

theorem makeSum_sim (S : Sem V) {g : CodeGen} {a b : PrimExpr V} {r : Lowered V ℕ}
    {m : Machine V} {σ : Store V} (h : g.makeSum a b = some r) (hsim : Sim g m σ) :
    LowersTo g m σ r.state (r.code.exec S m) ∧ r.val < r.state.next ∧
      (r.code.exec S m).env r.val =
        .data (S.ofInt (S.toInt (a.value σ) + S.toInt (b.value σ))) := by
  obtain ⟨x, y, hx, hy, rfl⟩ := makeSum_inv h
  obtain ⟨hlx, hxlt, hxval⟩ := makeValue_sim S hx hsim
  obtain ⟨hly, hylt, hyval⟩ := makeValue_sim S hy hlx.sim
  have hxy := hlx.trans hly
  have hderefx : (y.code.exec S (x.code.exec S m)).deref x.val = a.value σ := by
    rw [hly.deref hxlt, Machine.deref, hxval]
  have hderefy : (y.code.exec S (x.code.exec S m)).deref y.val = b.value σ := by
    rw [Machine.deref, hyval]
  have hagree : Agree y.state.next (y.code.exec S (x.code.exec S m))
      ((y.code.exec S (x.code.exec S m)).define y.state.next
        (.data (S.ofInt (S.toInt (a.value σ) + S.toInt (b.value σ))))) :=
    Agree.define le_rfl _ _
  have hlast : LowersTo y.state (y.code.exec S (x.code.exec S m)) σ
      { y.state with next := y.state.next + 1 }
      ((y.code.exec S (x.code.exec S m)).define y.state.next
        (.data (S.ofInt (S.toInt (a.value σ) + S.toInt (b.value σ))))) :=
    ⟨hly.sim.emits ⟨rfl, rfl, Nat.le_succ _⟩ hagree rfl, Nat.le_succ _, hagree, rfl⟩
  simp only [Mlir.exec, hderefx, hderefy]
  exact ⟨hxy.trans hlast, Nat.lt_succ_self _, Machine.env_define_self _ _ _⟩

theorem makeValues_sim (S : Sem V) {es : List (PrimExpr V)} :
    ∀ {g : CodeGen} {r : Lowered V (List ℕ)} {m : Machine V} {σ : Store V},
      g.makeValues es = some r → Sim g m σ →
      LowersTo g m σ r.state (r.code.exec S m) ∧ (∀ id ∈ r.val, id < r.state.next) ∧
        r.val.map (r.code.exec S m).deref = es.map fun e => e.value σ := by
  induction es with
  | nil =>
    intro g r m σ h hsim
    obtain rfl := Option.some.inj h
    exact ⟨LowersTo.refl hsim, by simp, rfl⟩
  | cons e es ih =>
    intro g r m σ h hsim
    obtain ⟨x, xs, hx, hxs, rfl⟩ := makeValues_cons_inv h
    obtain ⟨hlx, hxlt, hxval⟩ := makeValue_sim S hx hsim
    obtain ⟨hlxs, hxslt, hxsval⟩ := ih hxs hlx.sim
    refine ⟨hlx.trans hlxs, ?_, ?_⟩
    · intro id hid
      rcases List.mem_cons.mp hid with rfl | hid
      · exact lt_of_lt_of_le hxlt hlxs.next_le
      · exact hxslt id hid
    · rw [List.map_cons, List.map_cons, Mlir.exec, hxsval, hlxs.deref hxlt, Machine.deref, hxval]

theorem makeArg_sim (S : Sem V) {g : CodeGen} {a : Arg V} {r : Lowered V (List ℕ)}
    {m : Machine V} {σ : Store V} (h : g.makeArg a = some r) (hsim : Sim g m σ) :
    LowersTo g m σ r.state (r.code.exec S m) ∧ (∀ id ∈ r.val, id < r.state.next) ∧
      r.val.map (r.code.exec S m).deref = a.values σ := by
  cases a with
  | region buf bounds =>
    obtain ⟨b, xs, hb, hxs, rfl⟩ := makeArg_region_inv h
    obtain ⟨hl, hlt, hval⟩ := makeValues_sim S hxs hsim
    obtain ⟨hblt, hbholds⟩ := hsim buf b hb
    refine ⟨hl, ?_, ?_⟩
    · intro id hid
      rcases List.mem_cons.mp hid with rfl | hid
      · exact lt_of_lt_of_le hblt hl.next_le
      · exact hlt id hid
    · rw [List.map_cons, hval, hl.deref hblt, hbholds.deref, Arg.values]
  | scalar e =>
    obtain ⟨x, hx, rfl⟩ := makeArg_scalar_inv h
    obtain ⟨hl, hlt, hval⟩ := makeValue_sim S hx hsim
    refine ⟨hl, by simpa using hlt, ?_⟩
    rw [List.map_cons, List.map_nil, Machine.deref, hval, Arg.values]
  | str str =>
    obtain rfl := Option.some.inj h
    exact ⟨LowersTo.refl hsim, by simp, rfl⟩

theorem makeArgs_sim (S : Sem V) {as : List (Arg V)} :
    ∀ {g : CodeGen} {r : Lowered V (List ℕ)} {m : Machine V} {σ : Store V},
      g.makeArgs as = some r → Sim g m σ →
      LowersTo g m σ r.state (r.code.exec S m) ∧ (∀ id ∈ r.val, id < r.state.next) ∧
        r.val.map (r.code.exec S m).deref = as.flatMap (Arg.values σ) := by
  induction as with
  | nil =>
    intro g r m σ h hsim
    obtain rfl := Option.some.inj h
    exact ⟨LowersTo.refl hsim, by simp, rfl⟩
  | cons a as ih =>
    intro g r m σ h hsim
    obtain ⟨x, xs, hx, hxs, rfl⟩ := makeArgs_cons_inv h
    obtain ⟨hlx, hxlt, hxval⟩ := makeArg_sim S hx hsim
    obtain ⟨hlxs, hxslt, hxsval⟩ := ih hxs hlx.sim
    refine ⟨hlx.trans hlxs, ?_, ?_⟩
    · intro id hid
      rcases List.mem_append.mp hid with hid | hid
      · exact lt_of_lt_of_le (hxlt id hid) hlxs.next_le
      · exact hxslt id hid
    · have hkeep : x.val.map (xs.code.exec S (x.code.exec S m)).deref =
          x.val.map (x.code.exec S m).deref :=
        List.map_congr_left fun id hid => hlxs.deref (hxlt id hid)
      rw [List.map_append, List.flatMap_cons, Mlir.exec, hkeep, hxval, hxsval]

/-! ## Tile calls -/

/-- Binding several new values is binding the first, then the rest. -/
theorem setVarValues_freshValues_cons {g g' : CodeGen} {v : Var} {vs : List Var} {t : MType}
    {ts : List MType}
    (h : ({ g with next := g.next + (v :: vs).length } : CodeGen).setVarValues (v :: vs)
      (freshValues g.next (t :: ts)) = some g') :
    ∃ g₁, ({ g with next := g.next + 1 } : CodeGen).setVarValue v ⟨g.next, t⟩ = some g₁ ∧
      g₁.next = g.next + 1 ∧
      ({ g₁ with next := g₁.next + vs.length } : CodeGen).setVarValues vs
        (freshValues g₁.next ts) = some g' := by
  obtain ⟨l, hl, rfl⟩ := setVarValues_inv h
  obtain ⟨l₁, hl₁, hl⟩ := Layers.setAll_cons_eq_some hl
  refine ⟨⟨l₁, g.next + 1, g.coreType⟩, Option.map_eq_some_iff.mpr ⟨l₁, hl₁, rfl⟩, rfl, ?_⟩
  refine Option.map_eq_some_iff.mpr ⟨l, hl, ?_⟩
  simp only [List.length_cons]
  congr 1
  omega

/-- The results of an op, bound to its destinations, are their new contents. -/
theorem rebind_sim (S : Sem V) (op : TileOp) (vals : List V) {dsts : List Var} :
    ∀ {g g' : CodeGen} {m : Machine V} {σ : Store V} {tys : List MType} (k : ℕ),
      dsts.length = tys.length → (∀ t ∈ tys, t = .tensor) →
      ({ g with next := g.next + dsts.length } : CodeGen).setVarValues dsts
        (freshValues g.next tys) = some g' → Sim g m σ →
      Sim g'
        (m.defineAll ((((freshValues g.next tys).map MValue.id).zipIdx k).map fun p =>
          (p.1, .data (S.tile op p.2 vals))))
        ((dsts.zipIdx k).foldl (fun σ p => Function.update σ p.1 (S.tile op p.2 vals)) σ) := by
  induction dsts with
  | nil =>
    intro g g' m σ tys k hlen _ h hsim
    obtain rfl := List.length_eq_zero_iff.mp hlen.symm
    obtain ⟨l, hl, rfl⟩ := setVarValues_inv h
    obtain rfl := Option.some.inj hl
    exact hsim
  | cons v vs ih =>
    intro g g' m σ tys k hlen hty h hsim
    cases tys with
    | nil => cases hlen
    | cons t ts =>
      obtain ⟨g₁, hset, hnext, hrest⟩ := setVarValues_freshValues_cons h
      obtain rfl := hty t List.mem_cons_self
      have hfirst : Sim g₁ (m.define g.next (.data (S.tile op k vals)))
          (Function.update σ v (S.tile op k vals)) := hsim.define_set hset (by decide)
      have htail := ih (k + 1) (Nat.succ.inj hlen)
        (fun t ht => hty t (List.mem_cons_of_mem _ ht)) hrest hfirst
      rw [hnext] at htail
      exact htail

theorem emitRebind_sim (S : Sem V) {g : CodeGen} {op : TileOp} {operands : List ℕ}
    {dsts : List Var} {r : Emitted V} {m : Machine V} {σ : Store V}
    (h : g.emitRebind op operands dsts = some r) (hsim : Sim g m σ) :
    Agree g.next m (r.code.exec S m) ∧
      Sim r.state (r.code.exec S m)
        (dsts.zipIdx.foldl
          (fun σ p => Function.update σ p.1 (S.tile op p.2 (operands.map m.deref))) σ) := by
  obtain ⟨olds, g', holds, hty, hg', rfl⟩ := emitRebind_inv h
  have hlen : dsts.length = (olds.map MValue.ty).length := by
    rw [List.length_map, holds.length_eq]
  refine ⟨?_, rebind_sim S op (operands.map m.deref) 0 hlen (by simpa using hty) hg' hsim⟩
  intro id hid
  refine Machine.env_defineAll_of_notMem fun hmem => ?_
  simp only [List.map_map, List.mem_map, Function.comp_apply] at hmem
  obtain ⟨p, hp, rfl⟩ := hmem
  obtain ⟨x, hx, hxid⟩ := List.mem_map.mp (List.fst_mem_of_mem_zipIdx hp)
  exact absurd (freshValues_id hx).1 (Nat.not_le.mpr (by rw [hxid]; exact hid))

theorem emitInPlace_sim (S : Sem V) {g : CodeGen} {op : TileOp} {operands : List ℕ}
    {dst : Var} {r : Emitted V} {m : Machine V} {σ : Store V}
    (h : g.emitInPlace op operands dst = some r) (hsim : Sim g m σ) :
    Agree g.next m (r.code.exec S m) ∧
      Sim r.state (r.code.exec S m)
        (Function.update σ dst (S.tile op 0 (operands.map m.deref))) := by
  obtain ⟨x, hx, hty, rfl⟩ := emitInPlace_inv h
  have hholds := (hsim dst x hx).2
  rw [Holds, if_pos hty] at hholds
  simp only [Mlir.exec, hholds.1]
  exact ⟨Agree.refl _ _, hsim.write hx hty⟩

/-- A tile call updates the buffers the imperative one does. `VselectCodegen`
updates nothing when its destination is no tensor, so that case is left out. -/
theorem visitCall_sim (S : Sem V) {g : CodeGen} {op : TileOp} {args : List (Arg V)}
    {r : Emitted V} {m : Machine V} {σ : Store V} (h : g.visitCall op args = some r)
    (hsel : op = .select → ∀ dst ∈ op.updates args, g.IsTensor dst) (hsim : Sim g m σ) :
    Agree g.next m (r.code.exec S m) ∧
      Sim r.state (r.code.exec S m) ((Stmt.evaluate op args).run S σ) := by
  obtain ⟨xs, c, hxs, hc, rfl⟩ := visitCall_inv h
  obtain ⟨hl, -, hvals⟩ := makeArgs_sim S hxs hsim
  simp only [Stmt.run, ← hvals, Mlir.exec]
  rcases emitCall_inv hc with ⟨-, hc⟩ | ⟨dst, hdst, hc⟩ | ⟨rfl, -, dst, x, hdst, hx, hne⟩
  · obtain ⟨hagree, hsim'⟩ := emitRebind_sim S hc hl.sim
    exact ⟨hl.agree.trans hl.next_le hagree, hsim'⟩
  · obtain ⟨hagree, hsim'⟩ := emitInPlace_sim S hc hl.sim
    rw [hdst]
    exact ⟨hl.agree.trans hl.next_le hagree, hsim'⟩
  · obtain ⟨y, hy, hty⟩ := hsel rfl dst (by rw [hdst]; exact List.mem_cons_self)
    rw [(makeArgs_emits hxs).getVarValue, hy] at hx
    exact absurd (Option.some.inj hx ▸ hty) hne

/-! ## Loops and branches that carry what they rebind -/

/-- Along the visit of a statement, the carried list of every `For` and
`IfThenElse` contains every outer tensor its bodies rebind, every tile call
updates its destination, and a buffer is allocated once. -/
def Covered : CodeGen → Stmt V → Prop
  | g, .seq s t => g.Covered s ∧ ∀ a, g.visitStmt s = some a → a.state.Covered t
  | g, .forLoop x min extent body =>
    ∀ bv, g.bodyVisit (.forLoop x min extent body) = some bv →
      g.KeepsUpdates bv ∧ ∀ g', bv.entries = [g'] → g'.Covered body
  | g, .ifThen cond thenCase =>
    ∀ bv, g.bodyVisit (.ifThen cond thenCase) = some bv →
      g.KeepsUpdates bv ∧ ∀ g', bv.entries = [g'] → g'.Covered thenCase
  | g, .ifThenElse cond thenCase elseCase =>
    ∀ bv, g.bodyVisit (.ifThenElse cond thenCase elseCase) = some bv →
      g.KeepsUpdates bv ∧
        ∀ g' g'', bv.entries = [g', g''] → g'.Covered thenCase ∧ g''.Covered elseCase
  | g, .allocate buf scope body =>
    g.getVarValue buf = none ∧
      if scope.coreType? = none ∨ scope.coreType? = some g.coreType then
        ∀ g', ({ g with next := g.next + 1 } : CodeGen).setVarValue buf ⟨g.next, .tensor⟩ =
          some g' → g'.Covered body
      else g.Covered body
  | g, .letStmt x value body =>
    ∀ v g', g.makeValue value = some v → v.state.setVarValue x ⟨v.val, .scalar⟩ = some g' →
      g'.Covered body
  | _, .bufferStore _ _ _ => True
  | g, .evaluate op args => op = .select → ∀ dst ∈ op.updates args, g.IsTensor dst

/-- A variable bound to a scalar. -/
def IsScalar (g : CodeGen) (v : Var) : Prop :=
  ∃ x, g.getVarValue v = some x ∧ x.ty = .scalar

theorem Step.isScalar {g g' : CodeGen} {l : List Var} (h : Step g l g') {v : Var}
    (hv : g.IsScalar v) : g'.IsScalar v := by
  obtain ⟨x, hx, hty⟩ := hv
  obtain ⟨x', hx', hty'⟩ := h.types v x hx
  exact ⟨x', hx', hty'.trans hty⟩

theorem isScalar_addVarLayer {g : CodeGen} {v : Var} (hv : g.IsScalar v) :
    g.addVarLayer.IsScalar v := by
  obtain ⟨x, hx, hty⟩ := hv
  exact ⟨x, by rw [getVarValue_addVarLayer, hx], hty⟩

theorem IsScalar.ne_of_unbound {g : CodeGen} {v w : Var} (hv : g.IsScalar v)
    (hw : g.getVarValue w = none) : v ≠ w := by
  rintro rfl
  obtain ⟨x, hx, -⟩ := hv
  rw [hw] at hx
  cases hx

theorem IsScalar.ne_of_ty {g : CodeGen} {v w : Var} {x : MValue} (hv : g.IsScalar v)
    (hw : g.getVarValue w = some x) (hty : x.ty ≠ .scalar) : v ≠ w := by
  rintro rfl
  obtain ⟨y, hy, hty'⟩ := hv
  rw [hw] at hy
  exact hty (by rw [Option.some.inj hy, hty'])

theorem foldl_update_of_notMem {f : ℕ → V} {v : Var} :
    ∀ {ps : List (Var × ℕ)} {σ : Store V}, v ∉ ps.map Prod.fst →
      ps.foldl (fun σ p => Function.update σ p.1 (f p.2)) σ v = σ v := by
  intro ps
  induction ps with
  | nil =>
    intro σ _
    rfl
  | cons p ps ih =>
    intro σ h
    rw [List.map_cons, List.mem_cons, not_or] at h
    rw [List.foldl_cons, ih h.2, Function.update_of_ne h.1]

/-- A tile call does not touch scalars. -/
theorem run_evaluate_scalar (S : Sem V) {g : CodeGen} {op : TileOp} {args : List (Arg V)}
    {r : Emitted V} {σ : Store V} {v : Var} (h : g.visitCall op args = some r)
    (hsel : op = .select → ∀ dst ∈ op.updates args, g.IsTensor dst) (hv : g.IsScalar v) :
    (Stmt.evaluate op args).run S σ v = σ v := by
  obtain ⟨xs, c, hxs, hc, rfl⟩ := visitCall_inv h
  have hv' : xs.state.IsScalar v := (makeArgs_emits hxs).step.isScalar hv
  have hnot : v ∉ op.updates args := by
    intro hmem
    rcases emitCall_inv hc with ⟨-, hc⟩ | ⟨dst, hdst, hc⟩ | ⟨rfl, -, -⟩
    · obtain ⟨olds, -, holds, hty, -, -⟩ := emitRebind_inv hc
      obtain ⟨x, hx, hxv⟩ := exists_of_forall₂_right holds.flip hmem
      exact hv'.ne_of_ty hxv (by rw [hty x hx]; decide) rfl
    · obtain ⟨x, hx, hty, -⟩ := emitInPlace_inv hc
      rw [hdst, List.mem_singleton] at hmem
      exact hv'.ne_of_ty hx (by rw [hty]; decide) hmem
    · obtain ⟨x, hx, hty⟩ := hsel rfl v hmem
      exact hv.ne_of_ty hx (by rw [hty]; decide) rfl
  refine foldl_update_of_notMem (f := fun k => S.tile op k (args.flatMap (Arg.values σ))) ?_
  rwa [List.zipIdx_map_fst]

/-- Running a statement changes no scalar that was bound before it. -/
theorem run_scalar (S : Sem V) {s : Stmt V} {v : Var} :
    ∀ {g : CodeGen} {r : Emitted V} {σ : Store V}, g.visitStmt s = some r → g.Covered s →
      g.IsScalar v → s.run S σ v = σ v := by
  induction s with
  | seq s t ihs iht =>
    intro g r σ h hcov hv
    obtain ⟨a, b, ha, hb, rfl⟩ := visitStmt_seq_inv h
    rw [Stmt.run, iht hb (hcov.2 a ha) ((visitStmt_step ha).isScalar hv), ihs ha hcov.1 hv]
  | forLoop x mn ext body ih =>
    intro g r σ h hcov hv
    obtain ⟨lo, hi, f, g₁, g₂, iterArgs, b, yields, g₃, hlo, hhi, hf, hg₂, hb, -, -, rfl⟩ :=
      visitStmt_forLoop_inv h
    have hcov₂ := (hcov _ (bodyVisit_forLoop hlo hhi hf hg₂ hb)).2 g₂ rfl
    have hemit : Emits g g₁ :=
      ((makeValue_emits hlo).trans (makeSum_emits hhi)).trans (openFrame_emits hf)
    have hv₁ : g₁.IsScalar v := hemit.step.isScalar hv
    have hne : v ≠ x := hv₁.ne_of_unbound (enterFor_inv hg₂).1
    have hv₂ : g₂.IsScalar v :=
      (enterFor_step (openFrame_fits hf) hg₂).isScalar (isScalar_addVarLayer hv₁)
    refine countLoop_inv (P := fun σ' : Store V => σ' v = σ v) ?_ _ _ σ rfl
    intro i σ' hσ'
    rw [ih hb hcov₂ hv₂, Function.update_of_ne hne, hσ']
  | ifThen c t ih =>
    intro g r σ h hcov hv
    obtain ⟨c, f, g₁, g₂, t', yields, g₃, hc, hf, hg₂, ht, -, -, rfl⟩ := visitStmt_ifThen_inv h
    have hcov₂ := (hcov _ (bodyVisit_ifThen hc hf hg₂ ht)).2 g₂ rfl
    have hv₁ : g₁.IsScalar v := ((makeValue_emits hc).trans (openFrame_emits hf)).step.isScalar hv
    have hv₂ : g₂.IsScalar v :=
      (enterRegion_step (openFrame_fits hf).inits hg₂).isScalar (isScalar_addVarLayer hv₁)
    rw [Stmt.run]
    split
    · exact ih ht hcov₂ hv₂
    · rfl
  | ifThenElse c t e iht ihe =>
    intro g r σ h hcov hv
    obtain ⟨c, f, g₁, g₂, t', thenYields, g₃, xs, g₄, e', elseYields, g₅, hc, hf, hg₂, ht, -, hg₃,
      hxs, hg₄, he, -, -, rfl⟩ := visitStmt_ifThenElse_inv h
    obtain ⟨hcov₂, hcov₄⟩ :=
      (hcov _ (bodyVisit_ifThenElse hc hf hg₂ ht hg₃ hxs hg₄ he)).2 g₂ g₄ rfl
    have hv₁ : g₁.IsScalar v := ((makeValue_emits hc).trans (openFrame_emits hf)).step.isScalar hv
    have hv₂ : g₂.IsScalar v :=
      (enterRegion_step (openFrame_fits hf).inits hg₂).isScalar (isScalar_addVarLayer hv₁)
    have hv₃ : g₃.IsScalar v := (deleteThen_emits hf hg₂ ht hg₃).step.isScalar hv₁
    have hv₄ : g₄.IsScalar v :=
      (enterRegion_step hxs hg₄).isScalar (isScalar_addVarLayer hv₃)
    rw [Stmt.run]
    split
    · exact iht ht hcov₂ hv₂
    · exact ihe he hcov₄ hv₄
  | allocate buf scope body ih =>
    intro g r σ h hcov hv
    have hne : v ≠ buf := hv.ne_of_unbound hcov.1
    obtain ⟨g', hbody, hcov', hv'⟩ : ∃ g' : CodeGen, (∃ b, g'.visitStmt body = some b) ∧
        g'.Covered body ∧ g'.IsScalar v := by
      rcases visitStmt_allocate_inv h with ⟨hcore, -, g₁, b, hg₁, hb, -⟩ | ⟨hcore, h⟩
      · have hcov' := hcov.2
        rw [if_pos hcore] at hcov'
        obtain ⟨y, hy, hty⟩ := hv
        refine ⟨g₁, ⟨b, hb⟩, hcov' g₁ hg₁, y, ?_, hty⟩
        rw [getVarValue_setVarValue hg₁, if_neg hne]
        exact hy
      · have hcov' := hcov.2
        rw [if_neg hcore] at hcov'
        exact ⟨g, ⟨r, h⟩, hcov', hv⟩
    obtain ⟨b, hb⟩ := hbody
    rw [Stmt.run, ih hb hcov' hv', Function.update_of_ne hne]
  | letStmt x value body ih =>
    intro g r σ h hcov hv
    obtain ⟨hx, w, g₁, b, hw, hg₁, hb, rfl⟩ := visitStmt_letStmt_inv h
    have hne : v ≠ x := hv.ne_of_unbound hx
    have hv₁ : g₁.IsScalar v := by
      obtain ⟨y, hy, hty⟩ := (makeValue_emits hw).step.isScalar hv
      exact ⟨y, by rw [getVarValue_setVarValue hg₁, if_neg hne]; exact hy, hty⟩
    rw [Stmt.run, ih hb (hcov w g₁ hw hg₁) hv₁, Function.update_of_ne hne]
  | bufferStore buf value indices =>
    intro g r σ h _ hv
    obtain ⟨m, w, is, hm, -, -, hty⟩ := visitStmt_bufferStore_inv h
    have hne : v ≠ buf := by
      refine hv.ne_of_ty hm ?_
      rcases hty with ⟨hty, -⟩ | ⟨hty, -⟩ <;> rw [hty] <;> decide
    rw [Stmt.run, Function.update_of_ne hne]
  | evaluate op args =>
    intro g r σ h hcov hv
    exact run_evaluate_scalar S h hcov hv

/-! ## Regions -/

/-- `srcs` are values of the right types that denote the carried variables. -/
def Carries (g : CodeGen) (m : Machine V) (σ : Store V) (vars : List Var)
    (srcs : List MValue) : Prop :=
  List.Forall₂ (fun v y => Holds m σ v y ∧ ∃ x, g.getVarValue v = some x ∧ y.ty = x.ty) vars srcs

/-- Assigning new values from carried ones. -/
theorem Carries.assign {g : CodeGen} {m : Machine V} {σ : Store V} {vars : List Var}
    {srcs tgts : List MValue} (h : g.Carries m σ vars srcs) (hty : g.Retypes vars tgts)
    (hnd : (tgts.map MValue.id).Nodup) :
    List.Forall₂ (Holds (m.assign (tgts.map MValue.id) (srcs.map MValue.id)) σ) vars tgts := by
  have hlen : (tgts.map MValue.id).length = (srcs.map MValue.id).length := by
    rw [List.length_map, List.length_map, ← hty.length_eq, ← h.length_eq]
  have henv := Machine.env_assign (m := m) hnd hlen
  rw [List.forall₂_map_left_iff, List.forall₂_map_right_iff] at henv
  refine List.Forall₂.mp ?_ hty (forall₂_of_common_right h henv)
  rintro v t ⟨y, hy, hty⟩ ⟨s, ⟨hs, x, hx, hsx⟩, hts⟩
  rw [hy] at hx
  have htx : t.ty = s.ty := by rw [hty, hsx, Option.some.inj hx]
  exact hs.copy htx hts (Machine.mem_assign _ _ _)

/-- The values the carried variables are bound to carry them. -/
theorem carries_of_bound {g g' : CodeGen} {m : Machine V} {σ : Store V} {vars : List Var}
    {xs : List MValue} {l : List Var} (hsim : Sim g' m σ) (hstep : Step g.addVarLayer l g')
    (hbound : ∀ v ∈ vars, ∃ x, g.getVarValue v = some x)
    (hxs : List.Forall₂ (fun v x => g'.getVarValue v = some x) vars xs) :
    g.Carries m σ vars xs := by
  refine List.forall₂_iff_zip.mpr ⟨hxs.length_eq, fun {v y} hvy => ?_⟩
  have hy := List.forall₂_zip hxs hvy
  obtain ⟨x, hx⟩ := hbound v (List.of_mem_zip hvy).1
  obtain ⟨x', hx', hty⟩ := hstep.types v x (by rw [getVarValue_addVarLayer, hx])
  rw [hy] at hx'
  exact ⟨(hsim v y hy).2, x, hx, by rw [Option.some.inj hx', hty]⟩

theorem Frame.Fits.bound {f : Frame} {g : CodeGen} (h : f.Fits g) :
    ∀ v ∈ f.carried, ∃ x, g.getVarValue v = some x := by
  intro v hv
  obtain ⟨x, -, hx⟩ := exists_of_forall₂_right h.inits.flip hv
  exact ⟨x, hx⟩

/-- Leaving a region: the carried variables take the results, the others fall
back to their old values. -/
theorem leave_sim {g₀ g₁ b g₃ : CodeGen} {carried : List Var} {f : Frame} {l : List Var}
    {m₀ m : Machine V} {σ₀ σ : Store V} {srcs : List MValue} (hsim : Sim g₀ m₀ σ₀)
    (hf : g₀.openFrame carried = some (f, g₁)) (hnd : carried.Nodup)
    (hbody : Step g₁.addVarLayer l b) (hleave : b.leave f = some g₃)
    (hcar : g₁.Carries m σ f.carried srcs)
    (hkeep : ∀ v x, v ∉ f.carried → g₁.getVarValue v = some x → Holds m σ v x) :
    Agree g₀.next m (m.assign (f.results.map MValue.id) (srcs.map MValue.id)) ∧
      Sim g₃ (m.assign (f.results.map MValue.id) (srcs.map MValue.id)) σ := by
  have hfits := openFrame_fits hf
  obtain ⟨hcarried, -, hresults, -⟩ := openFrame_inv hf
  have hnd' : (f.results.map MValue.id).Nodup := by
    rw [hresults]
    exact nodup_freshValues _ _
  -- the results were created before the body, above every value bound outside
  have hnew : ∀ t ∈ f.results.map MValue.id, g₀.next ≤ t := by
    intro t ht
    obtain ⟨x, hx, rfl⟩ := List.mem_map.mp ht
    rw [hresults] at hx
    exact (freshValues_id hx).1
  have hagree := Agree.assign hnew m (srcs.map MValue.id)
  have hnew_holds := hcar.assign hfits.results hnd'
  refine ⟨hagree, ?_⟩
  obtain ⟨g', hg', hset⟩ := Option.bind_eq_some_iff.mp hleave
  have hdel : Emits g₁ g' := delete_emits hbody hg'
  have hnext : g₃.next = g'.next := by
    obtain ⟨l, -, rfl⟩ := setVarValues_inv hset
    rfl
  intro v x hx
  by_cases hv : v ∈ f.carried
  · have hget := getVarValue_setVarValues hset (hcarried ▸ hnd) hfits.results.length_eq
    have hboth := List.Forall₂.mp (fun v t hg hh => And.intro hg hh) hget hnew_holds
    obtain ⟨t, ht, htx, hth⟩ := exists_of_forall₂_right hboth.flip hv
    rw [hx] at htx
    obtain rfl := Option.some.inj htx
    exact ⟨hnext ▸ lt_of_lt_of_le (hfits.results_lt x ht) hdel.next_le, hth⟩
  · rw [getVarValue_setVarValues_of_notMem hset hv, hdel.getVarValue] at hx
    have hx₀ : g₀.getVarValue v = some x := by rwa [← (openFrame_emits hf).getVarValue]
    have hlt := (hsim v x hx₀).1
    refine ⟨?_, (hkeep v x hv hx).congr (hagree x.id hlt) (by rw [Machine.mem_assign]) rfl⟩
    rw [hnext]
    exact lt_of_lt_of_le hlt (le_trans (openFrame_emits hf).next_le hdel.next_le)

/-- What the visit of a body has to do: its code takes the machine from one
simulating state to the other. -/
def BodySim (S : Sem V) (g : CodeGen) (s : Stmt V) (b : Emitted V) : Prop :=
  ∀ (m : Machine V) (σ : Store V), Sim g m σ →
    Agree g.next m (b.code.exec S m) ∧ Sim b.state (b.code.exec S m) (s.run S σ)

/-- After a body, a variable that is not carried is still denoted by the value
it had before. -/
theorem holds_kept (S : Sem V) {g₂ : CodeGen} {s : Stmt V} {b : Emitted V} {m : Machine V}
    {σ : Store V} {v : Var} {x : MValue} (hb : g₂.visitStmt s = some b) (hcov : g₂.Covered s)
    (hbody : BodySim S g₂ s b) (hsim : Sim g₂ m σ) (hx : g₂.getVarValue v = some x)
    (hkeep : g₂.IsTensor v → v ∉ b.sets) :
    Holds (b.code.exec S m) (s.run S σ) v x := by
  obtain ⟨hagree, hsim'⟩ := hbody m σ hsim
  obtain ⟨hlt, hholds⟩ := hsim v x hx
  have henv := hagree x.id hlt
  rcases hty : x.ty with _ | _ | _
  · -- a tensor is not rebound, so it is the value bound after the body
    have hsame := (visitStmt_step hb).frame v (hkeep ⟨x, hx, hty⟩)
    exact (hsim' v x (by rw [hsame, hx])).2
  · -- a memref still refers to the memory of `v`
    obtain ⟨x', hx', hty'⟩ := (visitStmt_step hb).types v x hx
    have hholds' := (hsim' v x' hx').2
    rw [Holds, if_pos (hty'.trans hty)] at hholds'
    rw [Holds, if_pos hty] at hholds ⊢
    exact ⟨by rw [henv, hholds.1], hholds'.2⟩
  · have hne : x.ty ≠ .memref := by rw [hty]; decide
    rw [Holds, if_neg hne] at hholds
    refine holds_of_data hne ?_
    rw [henv, hholds, run_scalar S hb hcov ⟨x, hx, hty⟩]

/-- Entering a branch changes no binding. -/
theorem enterRegion_getVarValue {g g₂ : CodeGen} {carried : List Var} {xs : List MValue}
    (hnd : carried.Nodup)
    (hxs : List.Forall₂ (fun v x => g.getVarValue v = some x) carried xs)
    (h : g.enterRegion carried xs = some g₂) (v : Var) :
    g₂.getVarValue v = g.getVarValue v := by
  by_cases hv : v ∈ carried
  · have hget := getVarValue_setVarValues h hnd hxs.length_eq
    have hboth := List.Forall₂.mp (fun v x hg hg' => And.intro hg hg') hget hxs
    obtain ⟨x, -, hx, hx'⟩ := exists_of_forall₂_right hboth.flip hv
    rw [hx, hx']
  · rw [getVarValue_setVarValues_of_notMem h hv, getVarValue_addVarLayer]

theorem enterRegion_sim {g g₂ : CodeGen} {carried : List Var} {xs : List MValue}
    {m : Machine V} {σ : Store V} (hnd : carried.Nodup)
    (hxs : List.Forall₂ (fun v x => g.getVarValue v = some x) carried xs)
    (h : g.enterRegion carried xs = some g₂) (hsim : Sim g m σ) : Sim g₂ m σ := by
  intro v x hx
  rw [enterRegion_getVarValue hnd hxs h] at hx
  obtain ⟨hlt, hholds⟩ := hsim v x hx
  exact ⟨lt_of_lt_of_le hlt (enterRegion_step hxs h).next_le, hholds⟩

/-- One branch of an `scf.if`, taken from its entry to the op's results. -/
theorem branch_sim (S : Sem V) {g₀ g₁ g' g₂ b' g₃ : CodeGen} {carried : List Var} {f : Frame}
    {l : List Var} {xs yields : List MValue} {s : Stmt V} {b : Emitted V} {m : Machine V}
    {σ : Store V} (hsim : Sim g₀ m σ) (hf : g₀.openFrame carried = some (f, g₁))
    (hnd : carried.Nodup) (hmid : Emits g₁ g')
    (hxs : List.Forall₂ (fun v x => g'.getVarValue v = some x) f.carried xs)
    (hg₂ : g'.enterRegion f.carried xs = some g₂) (hb : g₂.visitStmt s = some b)
    (hyields : List.Forall₂ (fun v y => b.state.getVarValue v = some y) f.carried yields)
    (hstep : Step g₁.addVarLayer l b') (hleave : b'.leave f = some g₃)
    (hcov : g₂.Covered s) (hbody : BodySim S g₂ s b)
    (hkeep : ∀ v, g₀.IsTensor v → v ∉ f.carried → v ∉ b.sets) :
    Agree g₀.next m ((b.code.exec S m).assign (f.results.map MValue.id)
        (yields.map MValue.id)) ∧
      Sim g₃ ((b.code.exec S m).assign (f.results.map MValue.id) (yields.map MValue.id))
        (s.run S σ) := by
  have hnd' : f.carried.Nodup := (openFrame_inv hf).1 ▸ hnd
  have hemit : Emits g₀ g' := (openFrame_emits hf).trans hmid
  have hsim' : Sim g' m σ := hsim.emits hemit (Agree.refl _ _) rfl
  have hsim₂ : Sim g₂ m σ := enterRegion_sim hnd' hxs hg₂ hsim'
  have henter := enterRegion_step hxs hg₂
  have hmid' : Emits g₁.addVarLayer g'.addVarLayer :=
    ⟨congrArg Layers.push hmid.varMap, hmid.coreType, hmid.next_le⟩
  obtain ⟨hagree, hbsim⟩ := hbody m σ hsim₂
  have hcar : g₁.Carries (b.code.exec S m) (s.run S σ) f.carried yields :=
    carries_of_bound hbsim ((hmid'.step.trans henter).trans (visitStmt_step hb))
      (openFrame_fits hf).bound hyields
  have hres := leave_sim hsim hf hnd hstep hleave hcar ?_
  · refine ⟨?_, hres.2⟩
    exact (show Agree g₀.next m (b.code.exec S m) from fun id hid =>
      hagree id (lt_of_lt_of_le hid (le_trans hemit.next_le henter.next_le))).trans le_rfl hres.1
  · intro v x hv hx
    have hx₀ : g₀.getVarValue v = some x := by rwa [← (openFrame_emits hf).getVarValue]
    have hx₂ : g₂.getVarValue v = some x := by
      rw [enterRegion_getVarValue hnd' hxs hg₂, hmid.getVarValue, hx]
    refine holds_kept S hb hcov hbody hsim₂ hx₂ ?_
    rintro ⟨y, hy, hty⟩
    rw [hx₂] at hy
    exact hkeep v ⟨x, hx₀, by rw [Option.some.inj hy, hty]⟩ hv

/-- The bindings at the entry of a loop body. -/
structure LoopEntry (g₁ : CodeGen) (x : Var) (f : Frame) (iterArgs : List MValue)
    (g₂ : CodeGen) : Prop where
  unbound : g₁.getVarValue x = none
  iv : g₂.getVarValue x = some ⟨g₁.next, .scalar⟩
  args : List.Forall₂ (fun v a => g₂.getVarValue v = some a) f.carried iterArgs
  other : ∀ v, v ≠ x → v ∉ f.carried → g₂.getVarValue v = g₁.getVarValue v
  retypes : g₁.Retypes f.carried iterArgs
  nodup : (iterArgs.map MValue.id).Nodup
  args_id : ∀ a ∈ iterArgs, g₁.next < a.id ∧ a.id < g₂.next
  next_lt : g₁.next < g₂.next

theorem enterFor_entry {g₁ g₂ : CodeGen} {x : Var} {f : Frame} {iterArgs : List MValue}
    (hfits : f.Fits g₁) (hnd : f.carried.Nodup) (h : g₁.enterFor x f = some (g₂, iterArgs)) :
    LoopEntry g₁ x f iterArgs g₂ := by
  obtain ⟨hx, rfl, g', hg', hg₂⟩ := enterFor_inv h
  have hxcar : x ∉ f.carried := by
    intro hmem
    obtain ⟨y, hy⟩ := hfits.bound x hmem
    rw [hx] at hy
    cases hy
  have hnext : g₂.next = g₁.next + 1 + f.carried.length := by
    obtain ⟨l, -, rfl⟩ := setVarValues_inv hg₂
    obtain ⟨l', -, rfl⟩ := setVarValue_inv hg'
    rfl
  have hlen : f.carried.length =
      (freshValues (g₁.next + 1) (f.inits.map MValue.ty)).length := by
    rw [length_freshValues, List.length_map, hfits.inits.length_eq]
  refine ⟨hx, ?_, getVarValue_setVarValues hg₂ hnd hlen, ?_,
    retypes_freshValues hfits.inits _, nodup_freshValues _ _, ?_, by omega⟩
  · rw [getVarValue_setVarValues_of_notMem hg₂ hxcar, getVarValue_setVarValue hg', if_pos rfl]
  · intro v hv hcar
    rw [getVarValue_setVarValues_of_notMem hg₂ hcar, getVarValue_setVarValue hg', if_neg hv,
      getVarValue_addVarLayer]
    rfl
  · intro a ha
    have hid := freshValues_id ha
    rw [List.length_map, ← hfits.inits.length_eq] at hid
    omega

/-- Between two iterations, with `m₁` the machine before the loop: the values from
before the loop are unchanged, and every binding of the body but the induction
variable denotes its contents. -/
structure LoopInv (g₁ g₂ : CodeGen) (x : Var) (m₁ m : Machine V) (σ : Store V) : Prop where
  agree : Agree g₁.next m₁ m
  holds : ∀ v y, v ≠ x → g₂.getVarValue v = some y → Holds m σ v y

section

variable {S : Sem V} {g₀ g₁ g₂ : CodeGen} {x : Var} {f : Frame} {iterArgs : List MValue}
variable {m₁ m : Machine V} {σ : Store V}

theorem LoopEntry.id_cases (he : LoopEntry g₁ x f iterArgs g₂) (hsim : Sim g₁ m₁ σ) {v : Var}
    {y : MValue} (hv : v ≠ x) (hy : g₂.getVarValue v = some y) :
    (v ∈ f.carried ∧ y ∈ iterArgs) ∨
      (v ∉ f.carried ∧ g₁.getVarValue v = some y ∧ y.id < g₁.next) := by
  by_cases hcar : v ∈ f.carried
  · obtain ⟨a, ha, hav⟩ := exists_of_forall₂_right he.args.flip hcar
    rw [hy] at hav
    exact .inl ⟨hcar, Option.some.inj hav ▸ ha⟩
  · rw [he.other v hv hcar] at hy
    exact .inr ⟨hcar, hy, (hsim v y hy).1⟩

/-- Assigning the `iter_args` establishes the loop invariant. -/
theorem LoopEntry.assign (he : LoopEntry g₁ x f iterArgs g₂) {srcs : List MValue}
    (hagree : Agree g₁.next m₁ m) (hcar : g₁.Carries m σ f.carried srcs)
    (hother : ∀ v y, v ∉ f.carried → g₁.getVarValue v = some y →
      y.id < g₁.next ∧ Holds m σ v y) :
    LoopInv g₁ g₂ x m₁ (m.assign (iterArgs.map MValue.id) (srcs.map MValue.id)) σ := by
  have hnew : ∀ t ∈ iterArgs.map MValue.id, g₁.next ≤ t := by
    intro t ht
    obtain ⟨a, ha, rfl⟩ := List.mem_map.mp ht
    exact Nat.le_of_lt (he.args_id a ha).1
  have hassign := Agree.assign hnew m (srcs.map MValue.id)
  refine ⟨hagree.trans le_rfl hassign, ?_⟩
  intro v y hv hy
  by_cases hmem : v ∈ f.carried
  · have hboth := List.Forall₂.mp (fun v t hg hh => And.intro hg hh) he.args
      (hcar.assign he.retypes he.nodup)
    obtain ⟨a, -, hav, hholds⟩ := exists_of_forall₂_right hboth.flip hmem
    rw [hy] at hav
    rw [Option.some.inj hav]
    exact hholds
  · rw [he.other v hv hmem] at hy
    obtain ⟨hlt, hholds⟩ := hother v y hmem hy
    exact hholds.congr (hassign y.id hlt) (by rw [Machine.mem_assign]) rfl

/-- Setting the induction variable makes the invariant a simulation of the body's
entry. -/
theorem LoopInv.sim (he : LoopEntry g₁ x f iterArgs g₂) (hsim : Sim g₁ m₁ σ)
    {σ' : Store V} (hinv : LoopInv g₁ g₂ x m₁ m σ') (a : V) :
    Sim g₂ (m.define g₁.next (.data a)) (Function.update σ' x a) := by
  intro v y hy
  by_cases hv : v = x
  · subst hv
    rw [he.iv] at hy
    obtain rfl := Option.some.inj hy
    refine ⟨he.next_lt, holds_of_data (by simp) ?_⟩
    rw [Machine.env_define_self, Function.update_self]
  · have hid : y.id ≠ g₁.next ∧ y.id < g₂.next := by
      rcases he.id_cases hsim hv hy with ⟨-, ha⟩ | ⟨-, -, hlt⟩
      · exact ⟨Nat.ne_of_gt (he.args_id y ha).1, (he.args_id y ha).2⟩
      · exact ⟨Nat.ne_of_lt hlt, lt_trans hlt he.next_lt⟩
    exact ⟨hid.2, (hinv.holds v y hv hy).congr (Machine.env_define_of_ne hid.1) rfl
      (Function.update_of_ne hv _ _)⟩

/-- One iteration keeps the loop invariant. -/
theorem LoopInv.step (he : LoopEntry g₁ x f iterArgs g₂) (hfits : f.Fits g₁)
    (hsim : Sim g₁ m₁ σ) {s : Stmt V} {b : Emitted V} {yields : List MValue}
    {l : List Var} (hb : g₂.visitStmt s = some b) (henter : Step g₁.addVarLayer l g₂)
    (hyields : List.Forall₂ (fun v y => b.state.getVarValue v = some y) f.carried yields)
    (hcov : g₂.Covered s) (hbody : BodySim S g₂ s b)
    (hkeep : ∀ v, g₁.IsTensor v → v ∉ f.carried → v ∉ b.sets)
    {σ' : Store V} (hinv : LoopInv g₁ g₂ x m₁ m σ') (a : V) :
    LoopInv g₁ g₂ x m₁
      ((b.code.exec S (m.define g₁.next (.data a))).assign (iterArgs.map MValue.id)
        (yields.map MValue.id))
      (s.run S (Function.update σ' x a)) := by
  have hsim₂ := hinv.sim he hsim a
  obtain ⟨hagree, hbsim⟩ := hbody _ _ hsim₂
  have hagree₁ : Agree g₁.next m₁ (b.code.exec S (m.define g₁.next (.data a))) :=
    (hinv.agree.trans le_rfl (Agree.define le_rfl m _)).trans (Nat.le_of_lt he.next_lt) hagree
  have hcar := carries_of_bound hbsim (henter.trans (visitStmt_step hb)) hfits.bound hyields
  refine he.assign hagree₁ hcar ?_
  intro v y hmem hy
  refine ⟨(hsim v y hy).1, ?_⟩
  have hv : v ≠ x := by
    rintro rfl
    rw [he.unbound] at hy
    cases hy
  have hy₂ : g₂.getVarValue v = some y := by rw [he.other v hv hmem, hy]
  refine holds_kept S hb hcov hbody hsim₂ hy₂ ?_
  rintro ⟨z, hz, hty⟩
  rw [hy₂] at hz
  exact hkeep v ⟨y, hy, by rw [Option.some.inj hz, hty]⟩ hmem

end

/-- `scf.for` on its `iter_args` runs the imperative loop. -/
theorem forLoop_sim (S : Sem V) {g₀ g₁ g₂ g₃ : CodeGen} {x : Var} {s : Stmt V} {f : Frame}
    {iterArgs yields : List MValue} {b : Emitted V} {m : Machine V} {σ : Store V}
    {carried : List Var} (hsim : Sim g₀ m σ) (hf : g₀.openFrame carried = some (f, g₁))
    (hnd : carried.Nodup) (hg₂ : g₁.enterFor x f = some (g₂, iterArgs))
    (hb : g₂.visitStmt s = some b)
    (hyields : List.Forall₂ (fun v y => b.state.getVarValue v = some y) f.carried yields)
    (hleave : b.state.leave f = some g₃) (hcov : g₂.Covered s) (hbody : BodySim S g₂ s b)
    (hkeep : ∀ v, g₀.IsTensor v → v ∉ f.carried → v ∉ b.sets) (n : ℕ) (i : ℤ) :
    let step (i : ℤ) (m : Machine V) : Machine V :=
      (b.code.exec S (m.define g₁.next (.data (S.ofInt i)))).assign (iterArgs.map MValue.id)
        (yields.map MValue.id)
    let m' := (countLoop step n i
      (m.assign (iterArgs.map MValue.id) (f.inits.map MValue.id))).assign
        (f.results.map MValue.id) (iterArgs.map MValue.id)
    Agree g₀.next m m' ∧
      Sim g₃ m' (countLoop (fun i σ => s.run S (Function.update σ x (S.ofInt i))) n i σ) := by
  intro step m'
  have hfits := openFrame_fits hf
  have hemit := openFrame_emits hf
  have he : LoopEntry g₁ x f iterArgs g₂ :=
    enterFor_entry hfits ((openFrame_inv hf).1 ▸ hnd) hg₂
  have henter := enterFor_step hfits hg₂
  have hsim₁ : Sim g₁ m σ := hsim.emits hemit (Agree.refl _ _) rfl
  have hkeep₁ : ∀ v, g₁.IsTensor v → v ∉ f.carried → v ∉ b.sets := by
    rintro v ⟨y, hy, hty⟩
    exact hkeep v ⟨y, by rwa [← hemit.getVarValue], hty⟩
  -- before the first iteration the `iter_args` hold the initial values
  have hinit : LoopInv g₁ g₂ x m (m.assign (iterArgs.map MValue.id) (f.inits.map MValue.id)) σ := by
    refine he.assign (Agree.refl _ _) ?_ fun v y _ hy => hsim₁ v y hy
    exact List.Forall₂.imp (fun v y hy => ⟨(hsim₁ v y hy).2, y, hy, rfl⟩) hfits.inits
  have hloop : LoopInv g₁ g₂ x m
      (countLoop step n i (m.assign (iterArgs.map MValue.id) (f.inits.map MValue.id)))
      (countLoop (fun i σ => s.run S (Function.update σ x (S.ofInt i))) n i σ) := by
    refine countLoop_rel (R := LoopInv g₁ g₂ x m) ?_ n i _ _ hinit
    intro i m' σ' hinv
    exact hinv.step he hfits hsim₁ hb henter hyields hcov hbody hkeep₁ (S.ofInt i)
  have hcar : g₁.Carries (countLoop step n i
      (m.assign (iterArgs.map MValue.id) (f.inits.map MValue.id)))
      (countLoop (fun i σ => s.run S (Function.update σ x (S.ofInt i))) n i σ)
      f.carried iterArgs := by
    refine List.forall₂_iff_zip.mpr ⟨he.args.length_eq, fun {v a} hva => ?_⟩
    obtain ⟨y, hy, hty⟩ := List.forall₂_zip he.retypes hva
    have hvx : v ≠ x := by
      rintro rfl
      rw [he.unbound] at hy
      cases hy
    exact ⟨hloop.holds v a hvx (List.forall₂_zip he.args hva), y, hy, hty⟩
  have hres := leave_sim hsim hf hnd (henter.trans (visitStmt_step hb)) hleave hcar ?_
  · refine ⟨?_, hres.2⟩
    exact (show Agree g₀.next m _ from fun id hid =>
      hloop.agree id (lt_of_lt_of_le hid hemit.next_le)).trans le_rfl hres.1
  · intro v y hv hy
    have hvx : v ≠ x := by
      rintro rfl
      rw [he.unbound] at hy
      cases hy
    exact hloop.holds v y hvx (by rw [he.other v hvx hv, hy])

/-! ## Statements -/

/-- The trip count of the emitted loop is the extent. -/
theorem trips_eq (S : Sem V) (a b : ℤ) :
    (S.toInt (S.ofInt (a + b)) - b).toNat = a.toNat := by
  rw [S.toInt_ofInt, Int.add_sub_cancel]

/-- Visiting a statement emits code that does what the statement does. -/
theorem visitStmt_sim (S : Sem V) {s : Stmt V} :
    ∀ {g : CodeGen} {r : Emitted V}, g.visitStmt s = some r → g.Covered s →
      BodySim S g s r := by
  induction s with
  | seq s t ihs iht =>
    intro g r h hcov m σ hsim
    obtain ⟨a, b, ha, hb, rfl⟩ := visitStmt_seq_inv h
    obtain ⟨hagree, hsim₁⟩ := ihs ha hcov.1 m σ hsim
    obtain ⟨hagree', hsim₂⟩ := iht hb (hcov.2 a ha) _ _ hsim₁
    exact ⟨hagree.trans (visitStmt_step ha).next_le hagree', hsim₂⟩
  | forLoop x mn ext body ih =>
    intro g r h hcov m σ hsim
    obtain ⟨lo, hi, f, g₁, g₂, iterArgs, b, yields, g₃, hlo, hhi, hf, hg₂, hb, hyields, hleave,
      rfl⟩ := visitStmt_forLoop_inv h
    obtain ⟨hkeep, hcov₂⟩ := hcov _ (bodyVisit_forLoop hlo hhi hf hg₂ hb)
    obtain ⟨hllo, hlolt, hloval⟩ := makeValue_sim S hlo hsim
    obtain ⟨hlhi, -, hhival⟩ := makeSum_sim S hhi hllo.sim
    have hl := hllo.trans hlhi
    have hloderef : (hi.code.exec S (lo.code.exec S m)).deref lo.val = mn.value σ := by
      rw [hlhi.deref hlolt, Machine.deref, hloval]
    have hhideref : (hi.code.exec S (lo.code.exec S m)).deref hi.val =
        S.ofInt (S.toInt (ext.value σ) + S.toInt (mn.value σ)) := by
      rw [Machine.deref, hhival]
    have hemit := (makeValue_emits hlo).trans (makeSum_emits hhi)
    have hloop := forLoop_sim S hl.sim hf (nodup_collect List.nodup_nil) hg₂ hb hyields hleave
      (hcov₂ g₂ rfl) (ih hb (hcov₂ g₂ rfl)) ?_ (S.toInt (ext.value σ)).toNat
      (S.toInt (mn.value σ))
    · simp only [Mlir.exec, Stmt.run, hloderef, hhideref, trips_eq]
      exact ⟨hl.agree.trans hl.next_le hloop.1, hloop.2⟩
    · rintro v ⟨y, hy, hty⟩ hv hset
      exact hv (hkeep v ⟨y, by rwa [← hemit.getVarValue], hty⟩ hset)
  | ifThen cond t ih =>
    intro g r h hcov m σ hsim
    obtain ⟨c, f, g₁, g₂, t', yields, g₃, hc, hf, hg₂, ht, hyields, hleave, rfl⟩ :=
      visitStmt_ifThen_inv h
    obtain ⟨hkeep, hcov₂⟩ := hcov _ (bodyVisit_ifThen hc hf hg₂ ht)
    obtain ⟨hl, -, hcval⟩ := makeValue_sim S hc hsim
    have hderef : (c.code.exec S m).deref c.val = cond.value σ := by rw [Machine.deref, hcval]
    have hnd := nodup_collect (g := c.state) (s := t) List.nodup_nil
    have hstep := (enterRegion_step (openFrame_fits hf).inits hg₂).trans (visitStmt_step ht)
    simp only [Mlir.exec, Stmt.run, hderef]
    split
    · have hbranch := branch_sim S hl.sim hf hnd (Emits.refl _) (openFrame_fits hf).inits hg₂ ht
        hyields hstep hleave (hcov₂ g₂ rfl) (ih ht (hcov₂ g₂ rfl)) ?_
      · exact ⟨hl.agree.trans hl.next_le hbranch.1, hbranch.2⟩
      · rintro v ⟨y, hy, hty⟩ hv hset
        exact hv (hkeep v ⟨y, by rwa [← (makeValue_emits hc).getVarValue], hty⟩ hset)
    · -- without an else case the op yields the incoming values
      have hsim₁ := hl.sim.emits (openFrame_emits hf) (Agree.refl _ _) rfl
      have hcar : g₁.Carries (c.code.exec S m) σ f.carried f.inits :=
        List.Forall₂.imp (fun v y hy => ⟨(hsim₁ v y hy).2, y, hy, rfl⟩) (openFrame_fits hf).inits
      have hres := leave_sim hl.sim hf hnd hstep hleave hcar fun v y _ hy => (hsim₁ v y hy).2
      exact ⟨hl.agree.trans hl.next_le hres.1, hres.2⟩
  | ifThenElse cond t e iht ihe =>
    intro g r h hcov m σ hsim
    obtain ⟨c, f, g₁, g₂, t', thenYields, g₃, xs, g₄, e', elseYields, g₅, hc, hf, hg₂, ht,
      hthenYields, hg₃, hxs, hg₄, he, helseYields, hleave, rfl⟩ := visitStmt_ifThenElse_inv h
    obtain ⟨hkeep, hcov'⟩ := hcov _ (bodyVisit_ifThenElse hc hf hg₂ ht hg₃ hxs hg₄ he)
    obtain ⟨hcov₂, hcov₄⟩ := hcov' g₂ g₄ rfl
    obtain ⟨hl, -, hcval⟩ := makeValue_sim S hc hsim
    have hderef : (c.code.exec S m).deref c.val = cond.value σ := by rw [Machine.deref, hcval]
    have hnd : (c.state.collect e (c.state.collect t [])).Nodup :=
      nodup_collect (nodup_collect List.nodup_nil)
    have hmid := deleteThen_emits hf hg₂ ht hg₃
    have hmid' : Emits g₁.addVarLayer g₃.addVarLayer :=
      ⟨congrArg Layers.push hmid.varMap, hmid.coreType, hmid.next_le⟩
    have hstep := (hmid'.step.trans (enterRegion_step hxs hg₄)).trans (visitStmt_step he)
    have hkeep' : ∀ v, c.state.IsTensor v → v ∉ f.carried → v ∉ t'.sets ++ e'.sets := by
      rintro v ⟨y, hy, hty⟩ hv hset
      exact hv (hkeep v ⟨y, by rwa [← (makeValue_emits hc).getVarValue], hty⟩ hset)
    simp only [Mlir.exec, Stmt.run, hderef]
    split
    · have hbranch := branch_sim S hl.sim hf hnd (Emits.refl _) (openFrame_fits hf).inits hg₂ ht
        hthenYields hstep hleave hcov₂ (iht ht hcov₂)
        fun v hT hv hset => hkeep' v hT hv (List.mem_append_left _ hset)
      exact ⟨hl.agree.trans hl.next_le hbranch.1, hbranch.2⟩
    · have hbranch := branch_sim S hl.sim hf hnd hmid hxs hg₄ he helseYields hstep hleave hcov₄
        (ihe he hcov₄) fun v hT hv hset => hkeep' v hT hv (List.mem_append_right _ hset)
      exact ⟨hl.agree.trans hl.next_le hbranch.1, hbranch.2⟩
  | allocate buf scope body ih =>
    intro g r h hcov m σ hsim
    rcases visitStmt_allocate_inv h with ⟨hcore, -, g₁, b, hg₁, hb, rfl⟩ | ⟨hcore, hb⟩
    · have hcov' := hcov.2
      rw [if_pos hcore] at hcov'
      have hset : Sim g₁ (m.define g.next (.data (S.undef buf)))
          (Function.update σ buf (S.undef buf)) := hsim.define_set hg₁ (by decide)
      obtain ⟨hagree, hsim'⟩ := ih hb (hcov' g₁ hg₁) _ _ hset
      have hle : g.next ≤ g₁.next := by
        obtain ⟨l, -, rfl⟩ := setVarValue_inv hg₁
        exact Nat.le_succ _
      exact ⟨(Agree.define le_rfl m _).trans hle hagree, hsim'⟩
    · have hcov' := hcov.2
      rw [if_neg hcore] at hcov'
      -- on the wrong core the buffer stays unbound, so its contents are unobservable
      refine ih hb hcov' m _ fun v x hx => ?_
      have hne : v ≠ buf := by
        rintro rfl
        rw [hcov.1] at hx
        cases hx
      exact ⟨(hsim v x hx).1, (hsim v x hx).2.congr rfl rfl (Function.update_of_ne hne _ _)⟩
  | letStmt x value body ih =>
    intro g r h hcov m σ hsim
    obtain ⟨hx, w, g₁, b, hw, hg₁, hb, rfl⟩ := visitStmt_letStmt_inv h
    obtain ⟨hl, hlt, hval⟩ := makeValue_sim S hw hsim
    have hnext : g₁.next = w.state.next := by
      obtain ⟨l, -, rfl⟩ := setVarValue_inv hg₁
      rfl
    have hset : Sim g₁ (w.code.exec S m) (Function.update σ x (value.value σ)) := by
      intro v y hy
      rw [getVarValue_setVarValue hg₁] at hy
      by_cases hv : v = x
      · rw [if_pos hv] at hy
        obtain rfl := Option.some.inj hy
        refine ⟨hnext ▸ hlt, holds_of_data (by simp) ?_⟩
        rw [hval, hv, Function.update_self]
      · rw [if_neg hv] at hy
        obtain ⟨hlt', hholds⟩ := hl.sim v y hy
        exact ⟨hnext ▸ hlt', hholds.congr rfl rfl (Function.update_of_ne hv _ _)⟩
    obtain ⟨hagree, hsim'⟩ := ih hb (hcov w g₁ hw hg₁) _ _ hset
    exact ⟨hl.agree.trans (hnext ▸ hl.next_le) hagree, hsim'⟩
  | bufferStore buf value indices =>
    intro g r h _ m σ hsim
    obtain ⟨x, w, is, hx, hw, his, hty⟩ := visitStmt_bufferStore_inv h
    obtain ⟨hlw, hwlt, hwval⟩ := makeValue_sim S hw hsim
    obtain ⟨hlis, -, hisval⟩ := makeValues_sim S his hlw.sim
    have hl := hlw.trans hlis
    have hwderef : (is.code.exec S (w.code.exec S m)).deref w.val = value.value σ := by
      rw [hlis.deref hwlt, Machine.deref, hwval]
    have hx' : is.state.getVarValue buf = some x := by
      rw [((makeValue_emits hw).trans (makeValues_emits his)).getVarValue, hx]
    have hholds := (hl.sim buf x hx').2
    rcases hty with ⟨hty, rfl⟩ | ⟨hty, g₁, hg₁, rfl⟩
    · rw [Holds, if_pos hty] at hholds
      simp only [Mlir.exec, Stmt.run, hholds.1, hwderef, hisval, hholds.2]
      exact ⟨hl.agree, hl.sim.write hx' hty⟩
    · simp only [Mlir.exec, Stmt.run, hwderef, hisval, hholds.deref]
      exact ⟨hl.agree.trans hl.next_le (Agree.define le_rfl _ _),
        hl.sim.define_set hg₁ (by decide)⟩
  | evaluate op args =>
    intro g r h hcov m σ hsim
    exact visitCall_sim S h hcov hsim

/-- Integers as buffer contents; a tile op adds up its operands. -/
def sumSem : Sem ℤ where
  toInt := id
  ofInt := id
  toBool x := x ≠ 0
  undef _ := 0
  insert _ x _ := x
  tile _ _ vals := vals.sum
  toInt_ofInt := @id_eq ℤ

/-- `for k in range(3): T.npuir_add(buf, buf, buf)`. -/
def addThrice : Stmt ℤ :=
  .forLoop 1 ⟨[], fun _ => 0⟩ ⟨[], fun _ => 3⟩
    (.evaluate .add [.region 0 [], .region 0 [], .region 0 []])

end CodeGen

end TileLangNpuir.Codegen
