import TileLangNpuir.Carver.ShapeMapping

/-!
# Regions and reads

On a regular chain, each index that the tile reads is a value of one of the mapped regions, and one
of them has only values that are read.
-/

namespace TileLangNpuir.Carver.ShapeInference

/-! ## Updates of the bounds -/

section

variable {α : Type} {env : Intervals Var} {l : List α}

theorem foldl_update_of_forall_ne (key : α → Var) (val : α → ℤ × ℤ) {v : Var}
    (h : ∀ a ∈ l, key a ≠ v) :
    l.foldl (fun env a => Function.update env (key a) (val a)) env v = env v := by
  induction l generalizing env with
  | nil => rfl
  | cons a l ih =>
    rw [List.forall_mem_cons] at h
    rw [List.foldl_cons, ih h.2, Function.update_of_ne (Ne.symm h.1)]

theorem foldl_update_of_mem (key : α → Var) (val : α → ℤ × ℤ) (hnodup : (l.map key).Nodup) {a : α}
    (ha : a ∈ l) :
    l.foldl (fun env a => Function.update env (key a) (val a)) env (key a) = val a := by
  induction l generalizing env with
  | nil => cases ha
  | cons b l ih =>
    rw [List.map_cons, List.nodup_cons] at hnodup
    rw [List.foldl_cons]
    rcases List.mem_cons.mp ha with rfl | ha
    · have hne : ∀ c ∈ l, key c ≠ key a :=
        fun c hc heq => hnodup.1 (List.mem_map.mpr ⟨c, hc, heq⟩)
      rw [foldl_update_of_forall_ne key val hne, Function.update_self]
    · exact ih hnodup.2 ha

theorem foldl_update_nonempty (key : α → Var) (val : α → ℤ × ℤ)
    (hval : ∀ a ∈ l, (val a).1 ≤ (val a).2) (henv : env.Nonempty) :
    Intervals.Nonempty (l.foldl (fun env a => Function.update env (key a) (val a)) env) := by
  induction l generalizing env with
  | nil => exact henv
  | cons a l ih =>
    rw [List.forall_mem_cons] at hval
    refine ih hval.2 fun v => ?_
    dsimp only
    by_cases hv : v = key a
    · rw [hv, Function.update_self]
      exact hval.1
    · rw [Function.update_of_ne hv]
      exact henv v

end

section

variable {β : Type} {xs : List Var} {ys : List β}

theorem lookup_zip_of_notMem {v : Var} (h : v ∉ xs) : (xs.zip ys).lookup v = none :=
  List.lookup_eq_none_iff.mpr fun p hp => by
    simpa using fun heq : v = p.1 => h (heq ▸ (List.of_mem_zip hp).1)

/-- What the keys are mapped to. -/
theorem map_lookup_zip (hnodup : xs.Nodup) (hlength : xs.length = ys.length) (g : Var → β) :
    xs.map (fun v => ((xs.zip ys).lookup v).getD (g v)) = ys := by
  induction xs generalizing ys with
  | nil => exact (List.length_eq_zero_iff.mp hlength.symm).symm
  | cons x xs ih =>
    cases ys with
    | nil => cases hlength
    | cons y ys =>
      rw [List.nodup_cons] at hnodup
      have hrest : xs.map (fun v => (((x :: xs).zip (y :: ys)).lookup v).getD (g v)) =
          xs.map fun v => ((xs.zip ys).lookup v).getD (g v) := by
        refine List.map_congr_left fun v hv => ?_
        have hne : (v == x) = false := beq_false_of_ne fun heq => hnodup.1 (heq ▸ hv)
        rw [List.zip_cons_cons, List.lookup_cons, hne]
      rw [List.map_cons, hrest, ih hnodup.2 (Nat.succ.inj hlength), List.zip_cons_cons,
        List.lookup_cons, beq_self_eq_true]
      rfl

end

/-! ## The bounds of the axes -/

variable {An : Analyzer} {deps : List Statement} {t : Statement} {rank : Name → ℕ}
  {tile : List ℕ} {rstep : ℕ → Option ℕ}

theorem Chain.reduce_ne_spatial (hchain : Chain deps t rank) {a b : Statement} (ha : a ∈ deps)
    (hb : b ∈ deps) {ax : IterVar} (hax : ax ∈ a.reduceAxis) : ax.var ∉ b.spatialAxis := by
  intro hmem
  by_cases heq : a = b
  · subst heq
    have hnodup := hchain.nodup a ha
    rw [Statement.axes, List.nodup_append] at hnodup
    exact hnodup.2.2 ax.var hmem ax.var (List.mem_map_of_mem hax) rfl
  · exact hchain.disjoint_of_ne ha hb heq (List.mem_append_right _ (List.mem_map_of_mem hax))
      (List.mem_append_left _ hmem)

theorem Chain.nodup_spatial (hchain : Chain deps t rank) {a : Statement} (ha : a ∈ deps) :
    a.spatialAxis.Nodup := by
  have hnodup := hchain.nodup a ha
  rw [Statement.axes, List.nodup_append] at hnodup
  exact hnodup.1

theorem bounds_reduce (hchain : Chain deps t rank) {a : Statement} (ha : a ∈ deps) {ax : IterVar}
    (hax : ax ∈ a.reduceAxis) : bounds deps t.spatialAxis tile rstep ax.var = ax.bound rstep := by
  refine foldl_update_of_mem IterVar.var (fun ax => ax.bound rstep) ?_
    (List.mem_flatMap.mpr ⟨a, ha, hax⟩)
  rw [List.map_flatMap, List.nodup_flatMap]
  refine ⟨fun b hb => ?_, hchain.disjoint.imp fun hab => ?_⟩
  · have hnodup := hchain.nodup b hb
    rw [Statement.axes, List.nodup_append] at hnodup
    exact hnodup.2.1
  · rw [Function.onFun, List.disjoint_left]
    exact fun v hv hv' => hab v (List.mem_append_right _ hv) (List.mem_append_right _ hv')

theorem bounds_spatial (hchain : Chain deps t rank) (htile : TileOf t tile rstep) {p : Var × ℕ}
    (hp : p ∈ t.spatialAxis.zip tile) :
    bounds deps t.spatialAxis tile rstep p.1 = (0, (p.2 : ℤ) - 1) := by
  have hother : ∀ ax ∈ deps.flatMap (·.reduceAxis), ax.var ≠ p.1 := by
    intro ax hax heq
    obtain ⟨a, ha, hax⟩ := List.mem_flatMap.mp hax
    exact hchain.reduce_ne_spatial ha hchain.mem hax (heq ▸ (List.of_mem_zip hp).1)
  rw [bounds, foldl_update_of_forall_ne IterVar.var (fun ax => ax.bound rstep) hother]
  refine foldl_update_of_mem Prod.fst (fun p : Var × ℕ => (0, (p.2 : ℤ) - 1)) ?_ hp
  rw [List.map_fst_zip htile.length.ge]
  exact hchain.nodup_spatial hchain.mem

theorem bound_nonempty (htile : TileOf t tile rstep) {ax : IterVar} (hext : 0 < ax.extent) :
    (ax.bound rstep).1 ≤ (ax.bound rstep).2 := by
  unfold IterVar.bound
  split
  · rename_i r hr
    have := htile.step_pos ax.name r hr
    dsimp only
    omega
  · dsimp only
    omega

theorem bounds_nonempty (hchain : Chain deps t rank) (htile : TileOf t tile rstep) :
    (bounds deps t.spatialAxis tile rstep).Nonempty := by
  refine foldl_update_nonempty IterVar.var (fun ax => ax.bound rstep) ?_ ?_
  · intro ax hax
    obtain ⟨a, ha, hax⟩ := List.mem_flatMap.mp hax
    exact bound_nonempty htile (hchain.extent_pos a ha ax hax)
  · refine foldl_update_nonempty Prod.fst (fun p : Var × ℕ => (0, (p.2 : ℤ) - 1))
      (fun p hp => ?_) fun _ => by decide
    have := htile.pos p.2 (List.of_mem_zip hp).2
    dsimp only
    omega

/-! ## Values of regions -/

/-- The values of a region. -/
def values (ρ : Var → ℤ) (r : Region) : List ℤ := r.map (·.eval ρ)

theorem length_values (ρ : Var → ℤ) (r : Region) : (values ρ r).length = r.length :=
  List.length_map ..

theorem values_map_var (ρ : Var → ℤ) (vars : List Var) : values ρ (vars.map .var) = vars.map ρ :=
  List.map_map ..

theorem values_keep (deps : List Statement) (name : Name) (ρ : Var → ℤ) (r : Region) :
    values ρ (keep deps name r) = keep deps name (values ρ r) := (keep_map ..).symm

/-- A region is evaluated where the axes have the values of the indices. -/
theorem values_substRegion (An : Analyzer) {xs : List Var} {q r : Region} {τ σ : Var → ℤ}
    (hnodup : xs.Nodup) (hq : values τ q = xs.map σ)
    (hr : ∀ e ∈ r, ∀ v ∈ e.vars, v ∉ xs → τ v = σ v) :
    values τ (substRegion An xs q r) = values σ r := by
  have hlength : xs.length = q.length := by
    rw [← length_values τ q, hq, List.length_map]
  have hvar : ∀ v ∈ xs, (((xs.zip q).lookup v).getD (Affine.var v)).eval τ = σ v := by
    refine List.map_inj_left.mp ?_
    rw [← hq, values]
    nth_rewrite 2 [← map_lookup_zip hnodup hlength Affine.var]
    rw [List.map_map]
    rfl
  rw [values, substRegion, List.map_map]
  refine List.map_congr_left fun e he => ?_
  rw [Function.comp_apply, An.eval_simplify, Affine.eval_subst]
  refine Affine.eval_congr fun v hv => ?_
  by_cases hmem : v ∈ xs
  · exact hvar v hmem
  · rw [lookup_zip_of_notMem hmem]
    exact hr e he v hv hmem

/-- A valuation that gives some variables the values of a list. -/
def assign (xs : List Var) (is : List ℤ) (ρ : Var → ℤ) (v : Var) : ℤ :=
  ((xs.zip is).lookup v).getD (ρ v)

theorem map_assign {xs : List Var} {is : List ℤ} (hnodup : xs.Nodup)
    (hlength : xs.length = is.length) (ρ : Var → ℤ) : xs.map (assign xs is ρ) = is :=
  map_lookup_zip hnodup hlength ρ

theorem assign_of_notMem {xs : List Var} {v : Var} (h : v ∉ xs) (is : List ℤ) (ρ : Var → ℤ) :
    assign xs is ρ v = ρ v := by
  rw [assign, lookup_zip_of_notMem h]
  rfl

/-- The values of a region do not depend on the reduction axes of a block and those before it. -/
def FreeOf (deps : List Statement) (k : ℕ) (r : Region) : Prop :=
  ∀ ρ σ : Var → ℤ, (∀ v, (∀ a ∈ deps, position deps a.depName ≤ k →
    ∀ ax ∈ a.reduceAxis, v ≠ ax.var) → ρ v = σ v) → values ρ r = values σ r

theorem freeOf_target (hchain : Chain deps t rank) (k : ℕ) :
    FreeOf deps k (t.spatialAxis.map .var) := by
  intro ρ σ h
  rw [values_map_var, values_map_var]
  refine List.map_congr_left fun v hv => h v ?_
  rintro a ha - ax hax rfl
  exact hchain.reduce_ne_spatial ha hchain.mem hax hv

/-- Going back through a block brings in its reduction axes only. -/
theorem FreeOf.subst (hchain : Chain deps t rank) {b c : Statement} (hb : b ∈ deps) (hc : c ∈ deps)
    (hreads : b.depName ∈ c.inputBuffers) {q r : Region}
    (hlength : q.length = c.spatialAxis.length) (hq : FreeOf deps (position deps c.depName) q)
    (hr : ∀ e ∈ r, ∀ v ∈ e.vars, v ∈ c.axes) :
    FreeOf deps (position deps b.depName) (substRegion An c.spatialAxis q r) := by
  intro ρ σ h
  have hlt := hchain.position_lt hb hc hreads
  have hnodup := hchain.nodup_spatial hc
  have hsame : values ρ q = values σ q :=
    hq ρ σ fun v hv => h v fun a ha hle => hv a ha (hle.trans hlt.le)
  have hassign : values ρ q = c.spatialAxis.map (assign c.spatialAxis (values ρ q) ρ) := by
    rw [map_assign hnodup]
    rw [length_values, hlength]
  rw [values_substRegion An hnodup hassign fun e _ v _ hv => (assign_of_notMem hv ..).symm,
    values_substRegion An hnodup (hsame.symm.trans hassign) fun e he v hv hmem => ?_]
  rw [assign_of_notMem hmem]
  refine (h v ?_).symm
  rintro a ha hle ax hax rfl
  have hne : a ≠ c := by
    rintro rfl
    omega
  exact hchain.disjoint_of_ne ha hc hne (List.mem_append_right _ (List.mem_map_of_mem hax))
    (hr e he _ hv)

/-! ## Through a load -/

variable {f : Name → Option (List Region)}

theorem mem_inputBuffers_of_mem_inputLoads {dep : Statement} {load : Name × List PrimExpr}
    (h : load ∈ dep.inputLoads) : load.1 ∈ dep.inputBuffers :=
  of_decide_eq_true (List.mem_filter.mp h).2

theorem mem_of_mem_keep {α : Type} {name : Name} {l : List α} {a : α} (h : a ∈ keep deps name l) :
    a ∈ l := by
  unfold keep at h
  generalize 0 = k at h
  induction l generalizing k with
  | nil => cases h
  | cons b l ih =>
    rw [keepFrom] at h
    split at h
    · rcases List.mem_cons.mp h with rfl | h
      · exact List.mem_cons_self
      · exact List.mem_cons_of_mem b (ih (k + 1) h)
    · exact List.mem_cons_of_mem b (ih (k + 1) h)

theorem Chain.vars_keep (hchain : Chain deps t rank) {c : Statement} (hc : c ∈ deps)
    {load : Name × List PrimExpr} (hload : load ∈ c.inputLoads) :
    ∀ e ∈ keep deps load.1 load.2, ∀ v ∈ e.vars, v ∈ c.axes :=
  fun e he => hchain.vars c hc load (mem_loads_of_mem_inputLoads hload) e (mem_of_mem_keep he)

/-- The values of a load, when the reduction axes of the block have their values. -/
theorem Chain.values_load (hchain : Chain deps t rank) {c : Statement} (hc : c ∈ deps)
    {load : Name × List PrimExpr} (hload : load ∈ c.inputLoads) {q : Region} {σ τ : Var → ℤ}
    (hvalue : values τ q = c.spatialAxis.map σ)
    (hreduce : ∀ ax ∈ c.reduceAxis, σ ax.var = τ ax.var) :
    values τ (substRegion An c.spatialAxis q (keep deps load.1 load.2)) =
      keep deps load.1 (load.2.map (·.eval σ)) := by
  rw [values_substRegion An (hchain.nodup_spatial hc) hvalue fun e he v hv hmem => ?_, values_keep]
  · rfl
  · have haxes := hchain.vars_keep hc hload e he v hv
    obtain ⟨ax, hax, rfl⟩ := List.mem_map.mp ((List.mem_append.mp haxes).resolve_left hmem)
    exact (hreduce ax hax).symm

/-- A load takes a region of the block to one of the buffer. -/
theorem Mapped.mem_of_load (hf : Mapped An deps t rank f) (hchain : Chain deps t rank)
    (hreg : Regular An deps t) {c : Statement} (hfeeds : Feeds deps t c)
    {load : Name × List PrimExpr} (hload : load ∈ c.inputLoads) {qs : List Region}
    (hqs : f c.depName = some qs) {q : Region} (hq : q ∈ qs) :
    ∃ l, f load.1 = some l ∧
      substRegion An c.spatialAxis q (keep deps load.1 load.2) ∈ l := by
  have hc := hfeeds.mem hchain
  have hinput := mem_inputBuffers_of_mem_inputLoads hload
  have hneeded : Needed deps t load.1 := ⟨c, hfeeds, hinput⟩
  obtain ⟨qs', l, hqs', hl, hclosed⟩ := hf.closed c hc load.1 hinput (hneeded.before hchain).1
  obtain rfl : qs = qs' := Option.some.inj (hqs.symm.trans hqs')
  obtain ⟨region, hregion, hsame⟩ := exists_mem_dependentRegion (mem_loads_of_mem_inputLoads hload)
  -- the comparison zips, but regions of one buffer have one length
  have hlength : region.length = keptLength deps rank load.1 := by
    obtain ⟨load', hload', hname, rfl⟩ := of_mem_dependentRegion hinput hregion
    rw [← hname] at hneeded ⊢
    exact length_dropZeros hchain hreg hc hload' hneeded
  have hkept := length_dropZeros hchain hreg hc hload hneeded
  obtain rfl := eq_of_regionIsSame hsame (hkept.trans hlength.symm)
  obtain ⟨r, hr, hsame⟩ := hclosed q hq _ hregion
  have hsized := hf.sized load.1 hneeded l hl r hr
  obtain rfl := eq_of_regionIsSame hsame (by rw [length_substRegion, hlength, hsized])
  rw [← hreg.zeros c hc load hload hneeded]
  exact ⟨l, hl, hr⟩

/-! ## What is read is in a region -/

theorem Runs.inStep {b : Statement} {ρ : Var → ℤ} (h : Runs deps t tile rstep b ρ) :
    InStep rstep b ρ := by
  cases h with
  | target _ hstep => exact hstep
  | producer _ _ _ _ _ hstep => exact hstep

/-- The indices of an instance are values of a region, and what the instance reads by a load are
values of a region of the buffer. -/
theorem exists_value_of_load (hchain : Chain deps t rank) (hreg : Regular An deps t)
    (hf : Mapped An deps t rank f) {c : Statement} {σ τ : Var → ℤ}
    (hruns : Runs deps t tile rstep c σ) {load : Name × List PrimExpr} (hload : load ∈ c.inputLoads)
    {qs : List Region} {q : Region} (hqs : f c.depName = some qs) (hq : q ∈ qs)
    (hfree : FreeOf deps (position deps c.depName) q)
    (hτ : (bounds deps t.spatialAxis tile rstep).Contains τ)
    (hvalue : values τ q = c.spatialAxis.map σ) :
    ∃ l r τ', f load.1 = some l ∧ r ∈ l ∧
      (∀ b ∈ deps, b.depName = load.1 → FreeOf deps (position deps b.depName) r) ∧
      (bounds deps t.spatialAxis tile rstep).Contains τ' ∧
      values τ' r = keep deps load.1 (load.2.map (·.eval σ)) := by
  have hc := hruns.feeds.mem hchain
  have hlength : q.length = c.spatialAxis.length := by
    rw [← length_values τ q, hvalue, List.length_map]
  obtain ⟨l, hl, hr⟩ := hf.mem_of_load hchain hreg hruns.feeds hload hqs hq
  have hvars := hchain.vars_keep hc hload
  refine ⟨l, _, fun v => if v ∈ c.reduceAxis.map (·.var) then σ v else τ v, hl, hr, ?_, ?_, ?_⟩
  · intro b hb hname
    exact FreeOf.subst hchain hb hc (hname ▸ mem_inputBuffers_of_mem_inputLoads hload) hlength
      hfree hvars
  · refine hτ.ite fun v hv => ?_
    obtain ⟨ax, hax, rfl⟩ := List.mem_map.mp hv
    rw [bounds_reduce hchain hc hax]
    exact hruns.inStep ax hax
  · -- the indices of the block do not depend on its reduction axes
    have hsame : values (fun v => if v ∈ c.reduceAxis.map (·.var) then σ v else τ v) q =
        values τ q := by
      refine hfree _ _ fun v hv => if_neg fun hmem => ?_
      obtain ⟨ax, hax, rfl⟩ := List.mem_map.mp hmem
      exact hv c hc le_rfl ax hax rfl
    exact hchain.values_load hc hload (hsame.trans hvalue) fun ax hax =>
      (if_pos (List.mem_map_of_mem hax)).symm

/-- The indices of every instance that runs are values of a region. -/
theorem Runs.exists_region (hchain : Chain deps t rank) (htile : TileOf t tile rstep)
    (hreg : Regular An deps t) (hf : Mapped An deps t rank f) {b : Statement} {ρ : Var → ℤ}
    (h : Runs deps t tile rstep b ρ) :
    ∃ qs q τ, f b.depName = some qs ∧ q ∈ qs ∧ FreeOf deps (position deps b.depName) q ∧
      (bounds deps t.spatialAxis tile rstep).Contains τ ∧
      values τ q = b.spatialAxis.map ρ := by
  induction h with
  | @target ρ hin hstep =>
    refine ⟨_, _, fun v => if v ∈ t.spatialAxis then ρ v else (bounds deps t.spatialAxis tile rstep v).1,
      hf.target, List.mem_singleton_self _, freeOf_target hchain _, ?_, ?_⟩
    · refine (bounds_nonempty hchain htile).contains.ite fun v hv => ?_
      rw [← List.map_fst_zip htile.length.ge] at hv
      obtain ⟨p, hp, rfl⟩ := List.mem_map.mp hv
      rw [bounds_spatial hchain htile hp]
      have := hin p hp
      dsimp only
      omega
    · rw [values_map_var]
      exact List.map_congr_left fun v hv => if_pos hv
  | @producer b c ρ σ load hruns hload hb hname hwrites hstep ih =>
    obtain ⟨qs, q, τ, hqs, hq, hfree, hτ, hvalue⟩ := ih
    obtain ⟨l, r, τ', hl, hr, hfree', hτ', hvalue'⟩ :=
      exists_value_of_load hchain hreg hf hruns hload hqs hq hfree hτ hvalue
    rw [← hname] at hl
    refine ⟨l, r, τ', hl, hr, hfree' b hb hname, hτ', ?_⟩
    have hneeded : Needed deps t b.depName :=
      ⟨c, hruns.feeds, hname ▸ mem_inputBuffers_of_mem_inputLoads hload⟩
    calc values τ' r = keep deps b.depName (b.writes.map (·.eval ρ)) := by
          rw [hvalue', hwrites, hname]
      _ = values ρ (keep deps b.depName b.writes) := (values_keep ..).symm
      _ = b.spatialAxis.map ρ := by rw [hreg.writes b hb hneeded, values_map_var]

/-- Every index read is a value of a region. -/
theorem Reads.exists_region (hchain : Chain deps t rank) (htile : TileOf t tile rstep)
    (hreg : Regular An deps t) (hf : Mapped An deps t rank f) {name : Name} {idx : List ℤ}
    (h : Reads deps t tile rstep name idx) :
    ∃ l r τ, f name = some l ∧ r ∈ l ∧ (bounds deps t.spatialAxis tile rstep).Contains τ ∧
      values τ r = keep deps name idx := by
  obtain ⟨c, σ, hruns, load, hload, rfl, rfl⟩ := h
  obtain ⟨qs, q, τ, hqs, hq, hfree, hτ, hvalue⟩ := hruns.exists_region hchain htile hreg hf
  obtain ⟨l, r, τ', hl, hr, -, hτ', hvalue'⟩ :=
    exists_value_of_load hchain hreg hf hruns hload hqs hq hfree hτ hvalue
  exact ⟨l, r, τ', hl, hr, hτ', hvalue'⟩

/-! ## A region of which all is read -/

/-- A block that the target needs has a region of whose values each is the indices of an
instance. -/
theorem Feeds.exists_region (hchain : Chain deps t rank) (htile : TileOf t tile rstep)
    (hreg : Regular An deps t) (hf : Mapped An deps t rank f) {b : Statement}
    (h : Feeds deps t b) :
    ∃ qs q, f b.depName = some qs ∧ q ∈ qs ∧
      ∀ τ, (bounds deps t.spatialAxis tile rstep).Contains τ →
        ∃ ρ, Runs deps t tile rstep b ρ ∧ values τ q = b.spatialAxis.map ρ ∧
          ∀ ax ∈ b.reduceAxis, ρ ax.var = τ ax.var := by
  have hstep : ∀ b ∈ deps, ∀ ρ τ : Var → ℤ, (bounds deps t.spatialAxis tile rstep).Contains τ →
      (∀ ax ∈ b.reduceAxis, ρ ax.var = τ ax.var) → InStep rstep b ρ := by
    intro b hb ρ τ hτ hsame ax hax
    rw [← bounds_reduce hchain hb hax, hsame ax hax]
    exact hτ ax.var
  induction h with
  | target =>
    refine ⟨_, _, hf.target, List.mem_singleton_self _, fun τ hτ => ⟨τ, ?_, ?_, fun _ _ => rfl⟩⟩
    · refine .target (fun p hp => ?_) (hstep t hchain.mem τ τ hτ fun _ _ => rfl)
      have := hτ p.1
      rw [bounds_spatial hchain htile hp] at this
      dsimp only at this
      omega
    · exact values_map_var ..
  | @step b c hc hb hreads ih =>
    obtain ⟨qs, q, hqs, hq, hall⟩ := ih
    have hcmem := hc.mem hchain
    have hneeded : Needed deps t b.depName := ⟨c, hc, hreads⟩
    obtain ⟨load, hmem, hname⟩ := hchain.loaded c hcmem _ hreads
    have hload : load ∈ c.inputLoads :=
      List.mem_filter.mpr ⟨hmem, decide_eq_true (hname ▸ hreads)⟩
    obtain ⟨l, hl, hr⟩ := hf.mem_of_load hchain hreg hc hload hqs hq
    refine ⟨l, _, hname ▸ hl, hr, fun τ hτ => ?_⟩
    obtain ⟨σ, hruns, hvalue, hreduce⟩ := hall τ hτ
    rw [hchain.values_load hcmem hload hvalue hreduce, hname]
    -- the instance that writes the element that is read
    have hrank := (hchain.rank_loads c hcmem load hmem).trans
      ((congrArg rank hname).trans (hchain.rank_writes b hb).symm)
    have hlength : b.spatialAxis.length = (keep deps b.depName (load.2.map (·.eval σ))).length := by
      have hvars : (b.spatialAxis.map Affine.var).length = b.spatialAxis.length := List.length_map ..
      rw [← hvars, ← hreg.writes b hb hneeded]
      exact length_keepFrom (by rw [List.length_map, hrank])
    let ρ := assign b.spatialAxis (keep deps b.depName (load.2.map (·.eval σ))) τ
    have hρ : b.spatialAxis.map ρ = keep deps b.depName (load.2.map (·.eval σ)) :=
      map_assign (hchain.nodup_spatial hb) hlength τ
    have hrest : ∀ ax ∈ b.reduceAxis, ρ ax.var = τ ax.var := fun ax hax =>
      assign_of_notMem (hchain.reduce_ne_spatial hb hb hax) ..
    refine ⟨ρ, .producer hruns hload hb hname.symm ?_ (hstep b hb ρ τ hτ hrest), hρ.symm, hrest⟩
    have hkeep : keep deps b.depName (b.writes.map (·.eval ρ)) =
        keep deps b.depName (load.2.map (·.eval σ)) := by
      change keep deps b.depName (values ρ b.writes) = _
      rw [← values_keep, hreg.writes b hb hneeded, values_map_var, hρ]
    refine eq_of_keepFrom ?_ hkeep ?_
    · rw [List.length_map, List.length_map, hrank]
    · intro i hi hdrop
      rw [List.length_map] at hi
      rw [zero_add] at hdrop
      have hzero := getElem?_of_not_kept hcmem hload (hname ▸ hdrop)
      rw [List.getElem?_map, List.getElem?_map, hreg.writes_zero b hb hneeded i hi hdrop, hzero]
      rfl

/-- A needed buffer has a region of whose values each is read. -/
theorem Needed.exists_region (hchain : Chain deps t rank) (htile : TileOf t tile rstep)
    (hreg : Regular An deps t) (hf : Mapped An deps t rank f) {name : Name}
    (h : Needed deps t name) :
    ∃ l r, f name = some l ∧ r ∈ l ∧
      ∀ τ, (bounds deps t.spatialAxis tile rstep).Contains τ →
        ∃ idx, Reads deps t tile rstep name idx ∧ values τ r = keep deps name idx := by
  obtain ⟨c, hc, hreads⟩ := h
  have hcmem := hc.mem hchain
  obtain ⟨load, hmem, rfl⟩ := hchain.loaded c hcmem _ hreads
  have hload : load ∈ c.inputLoads := List.mem_filter.mpr ⟨hmem, decide_eq_true hreads⟩
  obtain ⟨qs, q, hqs, hq, hall⟩ := hc.exists_region hchain htile hreg hf
  obtain ⟨l, hl, hr⟩ := hf.mem_of_load hchain hreg hc hload hqs hq
  refine ⟨l, _, hl, hr, fun τ hτ => ?_⟩
  obtain ⟨σ, hruns, hvalue, hreduce⟩ := hall τ hτ
  exact ⟨_, ⟨c, σ, hruns, load, hload, rfl, rfl⟩, hchain.values_load hcmem hload hvalue hreduce⟩

end TileLangNpuir.Carver.ShapeInference
