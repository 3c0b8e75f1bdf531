import TileLangNpuir.Pipeline.Rounds

/-!
# The pipelined loop

The emitted loops leave the memory as the loop does, apart from the buffers of the pipeline. The
pass checks that a block that reads what an earlier block writes stays behind it, and provides
versions; that the other dependences are kept is what its callers have to see to.
-/

namespace TileLangNpuir.Pipeline

open Tir

variable {R : Type}

/-- In one iteration the first block still runs before the second one. -/
def Precedes (p q : PipelineBlock R) : Prop :=
  p.stage < q.stage ∨ (p.stage = q.stage ∧ p.order < q.order)

/-- The first block, in any iteration, still runs before the second one in a later iteration. -/
def PrecedesNext (p q : PipelineBlock R) : Prop :=
  p.stage ≤ q.stage ∨ (p.stage = q.stage + 1 ∧ p.order < q.order)

theorem Precedes.sooner {p q : PipelineBlock R} (h : Precedes p q) (i : ℤ) : Sooner (i, p) (i, q) := by
  rcases h with h | ⟨h, ho⟩
  · exact .inl (by simp only []; omega)
  · exact .inr ⟨by simp only []; omega, ho⟩

theorem PrecedesNext.sooner {p q : PipelineBlock R} (h : PrecedesNext p q) {i i' : ℤ} (hi : i < i') :
    Sooner (i, p) (i', q) := by
  rcases h with h | ⟨h, ho⟩
  · exact .inl (by simp only []; omega)
  · rcases Int.lt_or_eq_of_le (show i + 1 ≤ i' from hi) with hlt | heq
    · exact .inl (by simp only []; omega)
    · exact .inr ⟨by simp only []; omega, ho⟩

theorem precedes_of_mayPrecede {p q : PipelineBlock R} (h : p.mayPrecede q = true) :
    Precedes p q := by
  simp only [PipelineBlock.mayPrecede, Bool.and_eq_true, Bool.or_eq_true, decide_eq_true_eq] at h
  rcases Int.lt_or_eq_of_le h.1 with hlt | heq
  · exact .inl hlt
  · exact .inr ⟨heq, h.2.resolve_left fun hne => hne heq⟩

/-- What the check lets through. -/
theorem validatePipelineBody_spec {info : List (PipelineBlock R)}
    (h : validatePipelineBody info = true) {p q : PipelineBlock R} (hsub : [p, q].Sublist info)
    (hfeeds : p.feeds q = true) : Precedes p q := by
  induction info with
  | nil => cases hsub
  | cons b info ih =>
    rw [validatePipelineBody, Bool.and_eq_true, List.all_eq_true] at h
    cases hsub with
    | cons _ hsub => exact ih h.2 hsub
    | cons_cons _ hsub =>
      have hq := h.1 q (hsub.subset List.mem_cons_self)
      simp only [hfeeds, Bool.not_true, Bool.false_or, Bool.and_eq_true] at hq
      exact precedes_of_mayPrecede hq.2

/-! ## Enough versions -/

section

variable {mayConflict : R → R → Bool} {info : List (PipelineBlock R)}

/-- How many versions a buffer has after the pass. -/
def copies (mayConflict : R → R → Bool) (info : List (PipelineBlock R)) (a : Buffer) : ℤ :=
  max 1 (versions mayConflict info a)

theorem foldl_defStage (a : Buffer) (hstages : ∀ b ∈ info, 0 ≤ b.stage) (d : ℤ) (hd : -1 ≤ d) :
    let last := info.foldl
      (fun d b => if b.writesTo a then (if d = -1 then b.stage else min d b.stage) else d) d;
    (-1 ≤ last) ∧ (d ≠ -1 → last ≠ -1 ∧ last ≤ d) ∧
      ∀ b ∈ info, b.writesTo a = true → last ≠ -1 ∧ last ≤ b.stage := by
  induction info generalizing d with
  | nil => exact ⟨hd, fun h => ⟨h, le_rfl⟩, fun b hb => absurd hb List.not_mem_nil⟩
  | cons c info ih =>
    have hc := hstages c List.mem_cons_self
    have hrest := fun b hb => hstages b (List.mem_cons_of_mem c hb)
    simp only [List.foldl_cons]
    by_cases hw : c.writesTo a = true
    · by_cases hstart : d = -1
      · obtain ⟨h₁, h₂, h₃⟩ := ih hrest c.stage (by omega)
        simp only [hw, hstart, if_true]
        refine ⟨h₁, fun h => absurd rfl h, fun b hb hbw => ?_⟩
        rcases List.mem_cons.mp hb with rfl | hb
        · exact h₂ (by omega)
        · exact h₃ b hb hbw
      · obtain ⟨h₁, h₂, h₃⟩ := ih hrest (min d c.stage) (by omega)
        have hmin := h₂ (by omega)
        simp only [hw, hstart, if_true, if_false]
        refine ⟨h₁, fun _ => ⟨hmin.1, by omega⟩, fun b hb hbw => ?_⟩
        rcases List.mem_cons.mp hb with rfl | hb
        · exact ⟨hmin.1, by omega⟩
        · exact h₃ b hb hbw
    · obtain ⟨h₁, h₂, h₃⟩ := ih hrest d hd
      simp only [hw, Bool.false_eq_true, if_false]
      refine ⟨h₁, h₂, fun b hb hbw => ?_⟩
      rcases List.mem_cons.mp hb with rfl | hb
      · exact absurd hbw hw
      · exact h₃ b hb hbw

variable (info) in
theorem foldl_useStage (a : Buffer) (u : ℤ) :
    let last := info.foldl (fun u b => if b.readsFrom a then max u b.stage else u) u
    u ≤ last ∧ ∀ b ∈ info, b.readsFrom a = true → b.stage ≤ last := by
  induction info generalizing u with
  | nil => exact ⟨le_rfl, fun b hb => absurd hb List.not_mem_nil⟩
  | cons c info ih =>
    simp only [List.foldl_cons]
    by_cases hr : c.readsFrom a = true
    · obtain ⟨h₁, h₂⟩ := ih (max u c.stage)
      simp only [hr, if_true]
      refine ⟨by omega, fun b hb hbr => ?_⟩
      rcases List.mem_cons.mp hb with rfl | hb
      · omega
      · exact h₂ b hb hbr
    · obtain ⟨h₁, h₂⟩ := ih u
      simp only [hr, Bool.false_eq_true, if_false]
      refine ⟨h₁, fun b hb hbr => ?_⟩
      rcases List.mem_cons.mp hb with rfl | hb
      · exact absurd hbr hr
      · exact h₂ b hb hbr

theorem exists_regionOf {regions : List (BufferRegion Buffer R)} {a : Buffer}
    (h : (regions.any fun r => r.buffer = a) = true) : ∃ r, regionOf regions a = some r := by
  obtain ⟨r, hr, ha⟩ := List.any_eq_true.mp h
  cases hf : regions.find? fun r => r.buffer = a with
  | none => exact absurd ha (by simpa using List.find?_eq_none.mp hf r hr)
  | some s => exact ⟨s.region, by rw [regionOf, hf, Option.map_some]⟩

/-- A block reads a buffer at most as many stages behind a block that writes it as there are
versions; in that case it runs first. -/
theorem stage_sub_stage_le (hstages : ∀ b ∈ info, 0 ≤ b.stage) {a : Buffer}
    (hoverlap : ∀ writer ∈ info, ∀ reader ∈ info, ∀ w ∈ regionOf writer.writes a,
      ∀ r ∈ regionOf reader.reads a, mayConflict w r = true)
    {w r : PipelineBlock R} (hw : w ∈ info) (hr : r ∈ info) (hwrites : w.writesTo a = true)
    (hreads : r.readsFrom a = true) :
    r.stage - w.stage < copies mayConflict info a ∨
      (r.stage - w.stage = copies mayConflict info a ∧ r.order ≤ w.order) := by
  obtain ⟨-, -, hdef⟩ := foldl_defStage a hstages (-1) le_rfl
  obtain ⟨-, huse⟩ := foldl_useStage info a (-1)
  have hdef := hdef w hw hwrites
  have huse := huse r hr hreads
  have haccess : getBufferAccessInfo info a = some ⟨defStage info a, useStage info a⟩ := by
    refine if_pos (List.any_eq_true.mpr ⟨w, hw, ?_⟩)
    rw [hwrites, Bool.true_or]
  have hdef₁ : defStage info a ≠ -1 := hdef.1
  have hdef₂ : defStage info a ≤ w.stage := hdef.2
  have huse : r.stage ≤ useStage info a := huse
  rw [copies, versions, haccess, Option.map_some, Option.getD_some, computeBufferVersions,
    if_neg hdef₁]
  dsimp only
  by_cases hsaved : 2 ≤ useStage info a - defStage info a + 1 ∧
      needMultiVersion mayConflict info a = false
  · rw [if_pos hsaved]
    by_cases hfar : r.stage - w.stage < useStage info a - defStage info a
    · exact .inl (by omega)
    · refine .inr ⟨by omega, ?_⟩
      -- otherwise the pair would have asked for one more version
      by_contra hlate
      obtain ⟨written, hwritten⟩ := exists_regionOf hwrites
      obtain ⟨read, hread⟩ := exists_regionOf hreads
      have hneed : needMultiVersion mayConflict info a = true := by
        refine List.any_eq_true.mpr ⟨w, hw, ?_⟩
        rw [hwritten, Option.any_some]
        refine List.any_eq_true.mpr ⟨r, hr, ?_⟩
        rw [hread, Option.any_some, hoverlap w hw r hr written hwritten read hread, Bool.and_true,
          Bool.and_eq_true, decide_eq_true_eq, decide_eq_true_eq]
        omega
      rw [hneed] at hsaved
      exact Bool.noConfusion hsaved.2
  · rw [if_neg hsaved]
    exact .inl (by omega)

end

/-! ## What the blocks access -/

namespace PipelinedFor

/-- A cell of a buffer that is allocated in the loop. -/
def IsLocal (K : PipelinedFor R) (c : Cell) : Prop := ∃ a ∈ K.pipelineAllocs, c.1 = a.data

/-- The cells that the instances read and write. -/
structure Footprint (K : PipelinedFor R) (env : Env) : Type where
  reads : ℤ × PipelineBlock R → Set Cell
  writes : ℤ × PipelineBlock R → Set Cell
  acts : ∀ j, j.2 ∈ K.info → Acts (reads j) (writes j) (K.runInstance env j)

variable {K : PipelinedFor R} {env : Env}

namespace Footprint

/-- The blocks' reads and writes name what they access, and the condition around the loop body
does not depend on what they write. -/
structure Declared (T : Footprint K env) : Prop where
  reads : ∀ j, j.2 ∈ K.info → ∀ c ∈ T.reads j, (∃ r ∈ j.2.reads, r.buffer.data = c.1) ∨
    ∃ e ∈ K.predicateCondition, ∃ d ∈ e.loads, d.data = c.1
  writes : ∀ j, j.2 ∈ K.info → ∀ c ∈ T.writes j, ∃ r ∈ j.2.writes, r.buffer.data = c.1
  condition : ∀ j, j.2 ∈ K.info → ∀ c ∈ T.writes j, ∀ e ∈ K.predicateCondition, ∀ d ∈ e.loads,
    d.data ≠ c.1

/-- Two instances access a cell, and one of them writes it. -/
def Conflict (T : Footprint K env) (c : Cell) (j k : ℤ × PipelineBlock R) : Prop :=
  (c ∈ T.writes j ∧ (c ∈ T.reads k ∨ c ∈ T.writes k)) ∨ (c ∈ T.reads j ∧ c ∈ T.writes k)

/-- The dependences the pass does not look at: a block that writes what an earlier block of the
iteration accesses, and, outside the buffers of the pipeline, blocks of different iterations. -/
structure Ordered (T : Footprint K env) (lo n : ℤ) : Prop where
  stages : ∀ b ∈ K.info, 0 ≤ b.stage
  overwrite : ∀ p q, [p, q].Sublist K.info → ∀ i c, c ∈ T.writes (i, q) →
    c ∈ T.reads (i, p) ∨ c ∈ T.writes (i, p) → Precedes p q
  carried : ∀ p ∈ K.info, ∀ q ∈ K.info, ∀ i i' c, lo ≤ i → i < i' → i' < lo + n → ¬K.IsLocal c →
    T.Conflict c (i, p) (i', q) → PrecedesNext p q

/-- A buffer of the pipeline holds values of the iteration: what is read of it was written
earlier in the iteration, and what is written is read later. -/
structure Private (T : Footprint K env) (mayConflict : R → R → Bool) : Prop where
  covered : ∀ i, ∀ p ∈ K.info, ∀ c, K.IsLocal c → c ∈ T.reads (i, p) →
    ∃ q, [q, p].Sublist K.info ∧ c ∈ T.writes (i, q)
  usedLater : ∀ q ∈ K.info, ∀ a ∈ K.pipelineAllocs, q.writesTo a = true →
    ∃ r, [q, r].Sublist K.info ∧ r.readsFrom a = true
  inBuffer : ∀ j, j.2 ∈ K.info → ∀ a ∈ K.pipelineAllocs, ∀ c, c.1 = a.data →
    c ∈ T.reads j ∨ c ∈ T.writes j → 0 ≤ c.2 ∧ c.2 < a.shape.prod
  overlap : ∀ a ∈ K.pipelineAllocs, ∀ writer ∈ K.info, ∀ reader ∈ K.info,
    ∀ w ∈ regionOf writer.writes a, ∀ r ∈ regionOf reader.reads a, mayConflict w r = true

variable {T : Footprint K env} {mayConflict : R → R → Bool} {lo n : ℤ}

theorem Declared.writesTo (h : T.Declared) (haddr : K.Addressed mayConflict lo)
    {j : ℤ × PipelineBlock R} (hj : j.2 ∈ K.info) {a : Buffer} (ha : a ∈ K.pipelineAllocs)
    {c : Cell} (hc : c.1 = a.data) (hmem : c ∈ T.writes j) : j.2.writesTo a = true := by
  obtain ⟨r, hr, hdata⟩ := h.writes j hj c hmem
  have hbuffer : r.buffer ∈ K.buffers :=
    List.mem_append_right _ (List.mem_append_right _ (List.mem_flatMap.mpr ⟨j.2, hj,
      List.mem_append_right _ (List.mem_append_right _ (List.mem_map_of_mem hr))⟩))
  have heq := haddr.unaliased a ha r.buffer hbuffer (hdata.trans hc)
  exact List.any_eq_true.mpr ⟨r, hr, decide_eq_true heq⟩

theorem Declared.readsFrom (h : T.Declared) (haddr : K.Addressed mayConflict lo)
    {j : ℤ × PipelineBlock R} (hj : j.2 ∈ K.info) {a : Buffer} (ha : a ∈ K.pipelineAllocs)
    {c : Cell} (hc : c.1 = a.data) (hmem : c ∈ T.reads j) : j.2.readsFrom a = true := by
  rcases h.reads j hj c hmem with ⟨r, hr, hdata⟩ | ⟨e, he, d, hd, hdata⟩
  · have hbuffer : r.buffer ∈ K.buffers :=
      List.mem_append_right _ (List.mem_append_right _ (List.mem_flatMap.mpr ⟨j.2, hj,
        List.mem_append_right _ (List.mem_append_left _ (List.mem_map_of_mem hr))⟩))
    have heq := haddr.unaliased a ha r.buffer hbuffer (hdata.trans hc)
    exact List.any_eq_true.mpr ⟨r, hr, decide_eq_true heq⟩
  · have heq := haddr.unaliased a ha d (mem_buffers_of_condition he hd) (hdata.trans hc)
    exact absurd (heq ▸ ha) (haddr.condition e he d hd)

/-- A block that reads what an earlier block of the iteration writes has been checked. -/
theorem Declared.feeds (h : T.Declared) {p q : PipelineBlock R} (hp : p ∈ K.info) (hq : q ∈ K.info)
    {i i' : ℤ} {c : Cell} (hwrite : c ∈ T.writes (i, p)) (hread : c ∈ T.reads (i', q)) :
    p.feeds q = true := by
  obtain ⟨w, hw, hwdata⟩ := h.writes (i, p) hp c hwrite
  rcases h.reads (i', q) hq c hread with ⟨r, hr, hrdata⟩ | ⟨e, he, d, hd, hdata⟩
  · refine List.any_eq_true.mpr ⟨r, hr, List.any_eq_true.mpr ⟨w, hw, ?_⟩⟩
    exact decide_eq_true (hwdata.trans hrdata.symm)
  · exact absurd hdata (h.condition (i, p) hp c hwrite e he d hd)

/-- In one iteration the order of two blocks that conflict is kept. -/
theorem sooner_of_sublist (hvalid : validatePipelineBody K.info = true) (hdecl : T.Declared)
    (hord : T.Ordered lo n) {p q : PipelineBlock R} (hsub : [p, q].Sublist K.info) {i : ℤ}
    {c : Cell} (h : T.Conflict c (i, p) (i, q)) : Sooner (i, p) (i, q) := by
  have hp : p ∈ K.info := hsub.subset List.mem_cons_self
  have hq : q ∈ K.info := hsub.subset (List.mem_cons_of_mem p List.mem_cons_self)
  refine Precedes.sooner ?_ i
  rcases h with ⟨hw, hr | hw'⟩ | ⟨hr, hw⟩
  · exact validatePipelineBody_spec hvalid hsub (hdecl.feeds hp hq hw hr)
  · exact hord.overwrite p q hsub i c hw' (.inr hw)
  · exact hord.overwrite p q hsub i c hw (.inl hr)

theorem Conflict.symm {c : Cell} {j k : ℤ × PipelineBlock R} (h : T.Conflict c j k) :
    T.Conflict c k j := by
  rcases h with ⟨hw, hr | hw'⟩ | ⟨hr, hw⟩
  · exact .inr ⟨hr, hw⟩
  · exact .inl ⟨hw', .inr hw⟩
  · exact .inl ⟨hw, .inl hr⟩

end Footprint

/-! ## Places -/

section

variable {mayConflict : R → R → Bool} {lo : ℤ}

theorem skipOf_of_not_isLocal {k : ℤ} {c : Cell} (h : ¬K.IsLocal c) :
    K.skipOf mayConflict k c.1 = 0 := by
  have hfind : (K.pipelineAllocs.find? fun a => a.data = c.1) = none := by
    refine List.find?_eq_none.mpr fun a ha hdata => h ⟨a, ha, ?_⟩
    exact (of_decide_eq_true hdata).symm
  rw [skipOf, hfind]
  rfl

theorem moveUp_of_not_isLocal {k : ℤ} {c : Cell} (h : ¬K.IsLocal c) :
    moveUp (K.skipOf mayConflict k) c = c := by
  rw [moveUp_apply, skipOf_of_not_isLocal h, zero_add]

/-- Two iterations keep an element of a buffer in one place only if their distance is a multiple
of the number of versions. -/
theorem dvd_of_moveUp_eq (haddr : K.Addressed mayConflict lo) {a : Buffer}
    (ha : a ∈ K.pipelineAllocs) {k k' : ℤ} {c c' : Cell} (hc : c.1 = a.data)
    (hin : 0 ≤ c.2 ∧ c.2 < a.shape.prod) (hin' : 0 ≤ c'.2 ∧ c'.2 < a.shape.prod)
    (h : moveUp (K.skipOf mayConflict k) c = moveUp (K.skipOf mayConflict k') c') :
    c' = c ∧ copies mayConflict K.info a ∣ k' - k := by
  rw [moveUp_apply, moveUp_apply, Prod.mk.injEq] at h
  obtain ⟨hdata, helem⟩ := h
  have hc' : c'.1 = a.data := hdata.symm.trans hc
  rw [hc, hc', skipOf_of_mem haddr k ha, skipOf_of_mem haddr k' ha] at helem
  by_cases hv : 1 < versions mayConflict K.info a
  · rw [if_pos hv, if_pos hv, Int.fmod_eq_emod_of_nonneg _ (by omega),
      Int.fmod_eq_emod_of_nonneg _ (by omega)] at helem
    -- the versions do not overlap
    have hversion : k % versions mayConflict K.info a = k' % versions mayConflict K.info a := by
      have hdiv := congrArg (· / a.shape.prod) helem
      rwa [Int.add_comm, Int.add_mul_ediv_right _ _ (by omega), Int.ediv_eq_zero_of_lt hin.1 hin.2,
        Int.add_comm (_ * _), Int.add_mul_ediv_right _ _ (by omega),
        Int.ediv_eq_zero_of_lt hin'.1 hin'.2, zero_add, zero_add] at hdiv
    have helem : c.2 = c'.2 := by
      rw [hversion] at helem
      omega
    refine ⟨Prod.ext hdata.symm helem.symm, ?_⟩
    rw [copies, max_eq_right (by omega)]
    exact Int.dvd_of_emod_eq_zero (Int.emod_eq_emod_iff_emod_sub_eq_zero.mp hversion.symm)
  · rw [if_neg hv, if_neg hv] at helem
    refine ⟨Prod.ext hdata.symm (by omega), ?_⟩
    rw [copies, max_eq_left (by omega)]
    exact one_dvd _

end

/-! ## Every read finds its write -/

/-- What the callers of the pass have to see to. -/
structure Injectable (K : PipelinedFor R) (mayConflict : R → R → Bool) (lo n : ℤ)
    (T : K.Footprint env) : Prop where
  min : ∀ m, K.loop.min.eval env m = lo
  extent : ∀ m, K.loop.extent.eval env m = n
  wellScoped : K.WellScoped
  addressed : K.Addressed mayConflict lo
  declared : T.Declared
  ordered : T.Ordered lo n
  isPrivate : T.Private mayConflict
  once : RunsOnce n (maxStage K.info) K.info

section

variable {mayConflict : R → R → Bool} {lo n : ℤ} {T : K.Footprint env}

theorem sublist_total {l : List (PipelineBlock R)} {p q : PipelineBlock R} (hp : p ∈ l)
    (hq : q ∈ l) : p = q ∨ [p, q].Sublist l ∨ [q, p].Sublist l := by
  induction l with
  | nil => exact absurd hp List.not_mem_nil
  | cons b l ih =>
    rcases List.mem_cons.mp hp with rfl | hpl <;> rcases List.mem_cons.mp hq with rfl | hql
    · exact .inl rfl
    · exact .inr (.inl ((List.singleton_sublist.mpr hql).cons_cons p))
    · exact .inr (.inr ((List.singleton_sublist.mpr hpl).cons_cons q))
    · exact (ih hpl hql).imp_right (Or.imp (List.Sublist.cons b) (List.Sublist.cons b))

theorem earlier_total {j k : ℤ × PipelineBlock R} (hj : j.2 ∈ K.info) (hk : k.2 ∈ K.info) :
    j = k ∨ Earlier K.info j k ∨ Earlier K.info k j := by
  rcases lt_trichotomy j.1 k.1 with hlt | heq | hgt
  · exact .inr (.inl (.inl hlt))
  · rcases sublist_total hj hk with hjk | hjk | hjk
    · exact .inl (Prod.ext heq hjk)
    · exact .inr (.inl (.inr ⟨heq, hjk⟩))
    · exact .inr (.inr (.inr ⟨heq.symm, hjk⟩))
  · exact .inr (.inr (.inl hgt))

/-- Outside the buffers of the pipeline, instances that conflict keep their order. -/
theorem sooner_iff_of_not_isLocal (hvalid : validatePipelineBody K.info = true)
    (h : Injectable K mayConflict lo n T) {c : Cell} (hc : ¬K.IsLocal c)
    {j k : ℤ × PipelineBlock R} (hj : j ∈ iterations lo n K.info) (hk : k ∈ iterations lo n K.info)
    (hconflict : T.Conflict c j k) : Earlier K.info j k ↔ Sooner j k := by
  rw [mem_iterations] at hj hk
  have hkeep : ∀ j k : ℤ × PipelineBlock R, j.2 ∈ K.info → k.2 ∈ K.info → lo ≤ j.1 →
      k.1 < lo + n → T.Conflict c j k → Earlier K.info j k → Sooner j k := by
    rintro ⟨i, p⟩ ⟨i', q⟩ hp hq hlo hn hconflict (hlt | ⟨heq, hsub⟩)
    · exact (h.ordered.carried p hp q hq i i' c hlo hlt hn hc hconflict).sooner hlt
    · simp only [] at heq
      subst heq
      exact Footprint.sooner_of_sublist hvalid h.declared h.ordered hsub hconflict
  refine ⟨hkeep j k hj.1 hk.1 hj.2.1 hk.2.2 hconflict, fun hsooner => ?_⟩
  rcases earlier_total hj.1 hk.1 with rfl | hjk | hkj
  · exact absurd hsooner hsooner.asymm
  · exact hjk
  · exact absurd hsooner (hkeep k j hk.1 hj.1 hk.2.1 hj.2.2 hconflict.symm hkj).asymm

variable (K mayConflict lo) in
/-- Where an instance keeps the cells. -/
def place (j : ℤ × PipelineBlock R) : Equiv.Perm Cell := moveUp (K.skipOf mayConflict (j.1 - lo))

/-- Outside the buffers of the pipeline, lists with the same writes end with the same one. -/
theorem sameWrite_of_not_isLocal (hvalid : validatePipelineBody K.info = true)
    (h : Injectable K mayConflict lo n T) (hnodup : K.info.Nodup) {c : Cell} (hc : ¬K.IsLocal c)
    {a a' : List (ℤ × PipelineBlock R)} (ha : a.Pairwise (Earlier K.info)) (ha' : a'.Pairwise Sooner)
    (hsub : ∀ k ∈ a, k ∈ iterations lo n K.info) (hsub' : ∀ k ∈ a', k ∈ iterations lo n K.info)
    (hmem : ∀ k ∈ iterations lo n K.info, c ∈ T.writes k → (k ∈ a ↔ k ∈ a')) {m m' : Mem}
    (hm : m' c = m c) : SameWrite T.writes (K.place mayConflict lo) m m' a a' c c := by
  refine sameWrite_of_sorted (S := fun k => k ∈ iterations lo n K.info ∧ c ∈ T.writes k) ha ha'
    (fun j k => Earlier.asymm hnodup) (fun j k => Sooner.asymm)
    (fun k hk => ⟨hk.2, moveUp_of_not_isLocal hc⟩) (fun k hk => hmem k hk.1 hk.2)
    (fun j k hj hk => (sooner_iff_of_not_isLocal hvalid h hc hj.1 hk.1
      (.inl ⟨hj.2, .inr hk.2⟩)).mp)
    (fun k hk hw hnot => absurd ⟨hsub k hk, hw⟩ hnot) (fun k hk hy hnot => ?_) fun _ => hm.symm
  obtain ⟨x, hx, hplace⟩ := hy
  have hdata : x.1 = c.1 := by
    rw [← hplace]
    rfl
  have hxlocal : ¬K.IsLocal x := fun ⟨a, haK, hxa⟩ => hc ⟨a, haK, hdata.symm.trans hxa⟩
  have hxc : x = c := (moveUp_of_not_isLocal hxlocal).symm.trans hplace
  exact absurd ⟨hsub' k hk, hxc ▸ hx⟩ hnot

/-- A read of a buffer of the pipeline finds what was written in its iteration. -/
theorem sameWrite_of_isLocal (hvalid : validatePipelineBody K.info = true)
    (h : Injectable K mayConflict lo n T) (hnodup : K.info.Nodup) {i : ℤ} {p : PipelineBlock R}
    (hj : (i, p) ∈ iterations lo n K.info) {c : Cell} {x : Buffer} (hx : x ∈ K.pipelineAllocs)
    (hc : c.1 = x.data) (hread : c ∈ T.reads (i, p)) {a a' : List (ℤ × PipelineBlock R)}
    (ha : a.Pairwise (Earlier K.info)) (ha' : a'.Pairwise Sooner)
    (hmem : ∀ k, k ∈ a ↔ k ∈ iterations lo n K.info ∧ Earlier K.info k (i, p))
    (hmem' : ∀ k, k ∈ a' ↔ k ∈ iterations lo n K.info ∧ Sooner k (i, p)) (m m' : Mem) :
    SameWrite T.writes (K.place mayConflict lo) m m' a a' c (K.place mayConflict lo (i, p) c) := by
  rw [mem_iterations] at hj
  have hlocal : K.IsLocal c := ⟨x, hx, hc⟩
  obtain ⟨w, hwp, hww⟩ := h.isPrivate.covered i p hj.1 c hlocal hread
  have hw : w ∈ K.info := hwp.subset List.mem_cons_self
  have hwritesW := h.declared.writesTo h.addressed hw hx hc hww
  have hreadsP := h.declared.readsFrom h.addressed hj.1 hx hc hread
  have hwa : (i, w) ∈ a := (hmem _).mpr ⟨mem_iterations.mpr ⟨hw, hj.2⟩, .inr ⟨rfl, hwp⟩⟩
  have hwSooner : Sooner (i, w) (i, p) :=
    Footprint.sooner_of_sublist hvalid h.declared h.ordered hwp (.inl ⟨hww, .inl hread⟩)
  have hwa' : (i, w) ∈ a' := (hmem' _).mpr ⟨mem_iterations.mpr ⟨hw, hj.2⟩, hwSooner⟩
  have hstage : ∀ q ∈ K.info, ∀ r ∈ K.info, q.writesTo x = true → r.readsFrom x = true → _ :=
    fun q hq r hr => stage_sub_stage_le h.ordered.stages
      (fun writer hwriter reader hreader => h.isPrivate.overlap x hx writer hwriter reader hreader)
      hq hr
  refine sameWrite_of_sorted (S := fun k => k.1 = i ∧ k.2 ∈ K.info ∧ c ∈ T.writes k) ha ha'
    (fun j k => Earlier.asymm hnodup) (fun j k => Sooner.asymm) ?_ ?_ ?_ ?_ ?_ ?_
  · rintro ⟨i', q⟩ ⟨rfl, -, hq⟩
    exact ⟨hq, rfl⟩
  · rintro ⟨i', q⟩ ⟨rfl, hq, hqw⟩
    have hqmem : (i', q) ∈ iterations lo n K.info := mem_iterations.mpr ⟨hq, hj.2⟩
    have hqp : Earlier K.info (i', q) (i', p) ↔ Sooner (i', q) (i', p) := by
      refine ⟨fun hqp => ?_, fun hsooner => ?_⟩
      · rcases hqp with hlt | ⟨-, hsub⟩
        · exact absurd hlt (lt_irrefl _)
        · exact Footprint.sooner_of_sublist hvalid h.declared h.ordered hsub
            (.inl ⟨hqw, .inl hread⟩)
      · rcases sublist_total hq hj.1 with rfl | hsub | hsub
        · exact absurd hsooner hsooner.asymm
        · exact .inr ⟨rfl, hsub⟩
        · have := Footprint.sooner_of_sublist hvalid h.declared h.ordered hsub
            (.inr ⟨hread, hqw⟩)
          exact absurd hsooner this.asymm
    rw [hmem, hmem', hqp]
  · rintro ⟨i₁, q₁⟩ ⟨i₂, q₂⟩ ⟨rfl, -, hw₁⟩ ⟨heq, -, hw₂⟩ hearlier
    simp only [] at heq
    subst heq
    rcases hearlier with hlt | ⟨-, hsub⟩
    · exact absurd hlt (lt_irrefl _)
    · exact Footprint.sooner_of_sublist hvalid h.declared h.ordered hsub (.inl ⟨hw₁, .inr hw₂⟩)
  · -- what an earlier iteration wrote, this one has written again
    rintro ⟨i', q⟩ hk hkw hnot
    obtain ⟨hkmem, hk⟩ := (hmem _).mp hk
    rw [mem_iterations] at hkmem
    refine ⟨(i, w), hwa, ⟨rfl, hw, hww⟩, .inl ?_⟩
    rcases hk with hlt | ⟨heq, -⟩
    · exact hlt
    · exact absurd ⟨heq, hkmem.1, hkw⟩ hnot
  · -- an instance of another iteration keeps the cell there only `copies` iterations apart
    rintro ⟨i', q⟩ hk ⟨c', hc', hplace⟩ hnot
    obtain ⟨hkmem, hk⟩ := (hmem' _).mp hk
    rw [mem_iterations] at hkmem
    have hq : q ∈ K.info := hkmem.1
    have hdata : c'.1 = x.data := by
      have := congrArg Prod.fst hplace
      exact this.trans hc
    have hin := h.isPrivate.inBuffer (i, p) hj.1 x hx c hc (.inl hread)
    have hin' := h.isPrivate.inBuffer (i', q) hq x hx c' hdata (.inr hc')
    obtain ⟨rfl, hdvd⟩ := dvd_of_moveUp_eq h.addressed hx hc hin hin' hplace.symm
    rw [show i' - lo - (i - lo) = i' - i by omega] at hdvd
    have hne : i' ≠ i := fun heq => hnot ⟨heq, hq, hc'⟩
    have hwritesQ := h.declared.writesTo h.addressed hq hx hdata hc'
    have hcopies : 0 < copies mayConflict K.info x := by
      rw [copies]
      omega
    refine ⟨(i, w), hwa', ⟨rfl, hw, hww⟩, ?_⟩
    rcases lt_or_gt_of_ne hne with hlt | hgt
    · -- an earlier one: its write is over before this iteration writes
      have hfar := Int.le_of_dvd (by omega) ((dvd_neg.mpr hdvd))
      obtain ⟨r, hqr, hr⟩ := h.isPrivate.usedLater q hq x hx hwritesQ
      have hrmem : r ∈ K.info := hqr.subset (List.mem_cons_of_mem q List.mem_cons_self)
      have hbound := hstage w hw r hrmem hwritesW hr
      have hqr' : Precedes q r := by
        refine validatePipelineBody_spec hvalid hqr ?_
        obtain ⟨rw', hrw', hbw⟩ := List.any_eq_true.mp hwritesQ
        obtain ⟨rr, hrr, hbr⟩ := List.any_eq_true.mp hr
        refine List.any_eq_true.mpr ⟨rr, hrr, List.any_eq_true.mpr ⟨rw', hrw', ?_⟩⟩
        rw [of_decide_eq_true hbw, of_decide_eq_true hbr]
        exact decide_eq_true rfl
      simp only [Sooner]
      rcases hqr' with hstages | ⟨hstages, horders⟩ <;> rcases hbound with hb | ⟨hb, ho⟩ <;> omega
    · -- a later one: it comes after the read
      have hfar := Int.le_of_dvd (by omega) hdvd
      have hbound := hstage q hq p hj.1 hwritesQ hreadsP
      exfalso
      simp only [Sooner] at hk
      rcases hbound with hb | ⟨hb, ho⟩ <;> omega
  · intro hnone
    exact absurd ⟨rfl, hw, hww⟩ (hnone _ hwa)

/-! ## The loop and what becomes of it -/

/-- The blocks of one iteration. They do not change the condition they stand under. -/
theorem run_iteration (h : Injectable K mayConflict lo n T) (i : ℤ) {bs : List (PipelineBlock R)}
    (hbs : ∀ b ∈ bs, b ∈ K.info) (m : Mem) :
    (guardedBy K.predicateCondition (seqAll (bs.map PipelineBlock.body))).run
        (env.set K.loop.loopVar i) m =
      runAllOf (K.runInstance env) (bs.map fun b => (i, b)) m := by
  induction bs generalizing m with
  | nil =>
    cases K.predicateCondition with
    | none => rfl
    | some c => exact ite_self m
  | cons b bs ih =>
    have hb := hbs b List.mem_cons_self
    rw [List.map_cons, List.map_cons, runAllOf_cons,
      ← ih fun b hb => hbs b (List.mem_cons_of_mem _ hb)]
    cases hcond : K.predicateCondition with
    | none =>
      rw [runInstance, hcond]
      rfl
    | some c =>
      have hmem : c ∈ K.predicateCondition := hcond
      have hkept : c.eval (env.set K.loop.loopVar i) (K.runInstance env (i, b) m) =
          c.eval (env.set K.loop.loopVar i) m := by
        refine c.eval_congr (fun _ _ => rfl) fun d hd k => ?_
        refine (T.acts (i, b) hb).frame m _ fun hw => ?_
        exact h.declared.condition (i, b) hb _ hw c hmem d hd rfl
      have hinst : K.runInstance env (i, b) m =
          if c.eval (env.set K.loop.loopVar i) m ≠ 0 then
            b.body.run (env.set K.loop.loopVar i) m
          else m := by
        rw [runInstance, hcond]
        rfl
      have hleft : ∀ s m, (guardedBy (some c) s).run (env.set K.loop.loopVar i) m =
          if c.eval (env.set K.loop.loopVar i) m ≠ 0 then s.run (env.set K.loop.loopVar i) m
          else m := fun _ _ => rfl
      rw [hleft, hleft, hkept, hinst]
      by_cases hc : c.eval (env.set K.loop.loopVar i) m ≠ 0
      · rw [if_pos hc, if_pos hc, if_pos hc]
        rfl
      · rw [if_neg hc, if_neg hc, if_neg hc]

theorem run_original (h : Injectable K mayConflict lo n T) (m : Mem) :
    K.original.run env m = runAllOf (K.runInstance env) (iterations lo n K.info) m := by
  rw [original, Stmt.run, h.min, h.extent]
  exact countLoop_runAllOf _ _ _ fun i _ _ m => run_iteration h i (fun b hb => hb) m

/-- The pieces of a successful injection. -/
theorem inject_spec {A : Analyzer} {newVars : Var × Var × Var} {s : Stmt}
    (h : K.inject A mayConflict newVars = some s) :
    validatePipelineBody K.info = true ∧ ∃ ordered, orderedStmts K.info = some ordered ∧
      s = (K.rewriter A mayConflict).emitAll ordered newVars := by
  rw [inject] at h
  simp only [Option.ite_none_right_eq_some] at h
  obtain ⟨hvalid, h⟩ := h
  rw [build] at h
  simp only [Option.ite_none_right_eq_some] at h
  obtain ⟨-, h⟩ := h
  obtain ⟨ordered, hordered, rfl⟩ := Option.map_eq_some_iff.mp h
  exact ⟨hvalid, ordered, hordered, rfl⟩

end

end PipelinedFor

/-! ## Two loops -/

theorem provesNothing {P : Prop} (h : false = true) : P := Bool.noConfusion h

/-- An analyzer that proves nothing. -/
def Analyzer.idle : Analyzer where
  provesOne _ := false
  provesNot _ _ := false
  provesOne_sound _ := provesNothing
  provesNot_sound _ _ := provesNothing

/-- A block that adds one to the only element of a buffer. -/
def bump (buffer : Buffer) (stage : ℤ) : PipelineBlock Unit where
  body := .store buffer ((Expr.load buffer (.cons (.int 0) .nil)).add (.int 1)) (.cons (.int 0) .nil)
  reads := [⟨buffer, ()⟩]
  writes := [⟨buffer, ()⟩]
  stage := stage
  order := stage
  async := false

/-- A loop of one iteration over three stages. -/
def shortLoop : PipelinedFor Unit where
  loop := ⟨0, .int 0, .int 1⟩
  predicateCondition := none
  pipelineAllocs := []
  info := [bump ⟨1, [1]⟩ 0, bump ⟨2, [1]⟩ 1, bump ⟨3, [1]⟩ 2]

/-- `S[0] = A[k]` -/
def copyBlock : PipelineBlock Unit where
  body := .store ⟨1, [1]⟩ (.load ⟨0, [8]⟩ (.cons (.var 0) .nil)) (.cons (.int 0) .nil)
  reads := [⟨⟨0, [8]⟩, ()⟩]
  writes := [⟨⟨1, [1]⟩, ()⟩]
  stage := 0
  order := 0
  async := false

/-- `C[0] = C[0] + S[0]` -/
def addBlock : PipelineBlock Unit where
  body := .store ⟨2, [1]⟩ ((Expr.load ⟨2, [1]⟩ (.cons (.int 0) .nil)).add
    (.load ⟨1, [1]⟩ (.cons (.int 0) .nil))) (.cons (.int 0) .nil)
  reads := [⟨⟨2, [1]⟩, ()⟩, ⟨⟨1, [1]⟩, ()⟩]
  writes := [⟨⟨2, [1]⟩, ()⟩]
  stage := 1
  order := 1
  async := false

/-- A loop over the two, with `S` in the pipeline. -/
def copyThenAdd : PipelinedFor Unit where
  loop := ⟨0, .int 0, .int 4⟩
  predicateCondition := none
  pipelineAllocs := [⟨1, [1]⟩]
  info := [copyBlock, addBlock]

/-- What its blocks access: the copy has order 0. -/
def copyThenAddFootprint : copyThenAdd.Footprint fun _ => 0 where
  reads j := if j.2.order = 0 then {(0, j.1)} else {(2, 0), (1, 0)}
  writes j := if j.2.order = 0 then {(1, 0)} else {(2, 0)}
  acts := by
    rintro ⟨i, b⟩ hb
    simp only [copyThenAdd, List.mem_cons, List.not_mem_nil, or_false] at hb
    rcases hb with rfl | rfl
    · refine ⟨fun m x hx => if_neg hx, fun m m' hm x hx => ?_⟩
      have hread := hm (0, i) rfl
      rw [show x = (1, 0) from hx]
      simpa [PipelinedFor.runInstance, copyThenAdd, copyBlock, guardedBy, Stmt.run, Mem.set, Expr.eval,
        Exprs.eval, RowMajor.flatten, Env.set] using hread
    · refine ⟨fun m x hx => if_neg hx, fun m m' hm x hx => ?_⟩
      have hread := hm (2, 0) (.inl rfl)
      have hread' := hm (1, 0) (.inr rfl)
      rw [show x = (2, 0) from hx]
      simp [PipelinedFor.runInstance, copyThenAdd, addBlock, guardedBy, Stmt.run, Mem.set, Expr.eval,
        Exprs.eval, RowMajor.flatten, Expr.add, Expr.binary, hread, hread']

theorem copyThenAdd_cases {b : PipelineBlock Unit} (hb : b ∈ copyThenAdd.info) :
    b = copyBlock ∨ b = addBlock := by
  simpa only [copyThenAdd, List.mem_cons, List.not_mem_nil, or_false] using hb

theorem copyThenAdd_injectable :
    copyThenAdd.Injectable (fun _ _ => true) 0 4 copyThenAddFootprint := by
  have hsublist : ∀ p q, [p, q].Sublist copyThenAdd.info →
      p = copyBlock ∧ q = addBlock := by
    intro p q hsub
    have := hsub.eq_of_length rfl
    rw [copyThenAdd, List.cons.injEq, List.cons.injEq] at this
    exact ⟨this.1, this.2.1⟩
  refine ⟨fun _ => rfl, fun _ => rfl, ?_, ?_, ?_, ?_, ?_, .inl (by decide)⟩
  · refine ⟨rfl, rfl, List.not_mem_nil, fun b hb y hy => ?_⟩
    rcases copyThenAdd_cases hb with rfl | rfl <;> exact absurd hy List.not_mem_nil
  · refine ⟨by decide, fun c hc => absurd hc (Option.not_mem_none c), fun b hb p hp => ?_⟩
    rcases copyThenAdd_cases hb with rfl | rfl <;> exact absurd hp List.not_mem_nil
  · refine ⟨fun j hj c hc => .inl ?_, fun j hj c hc => ?_,
      fun j hj c hc e he => absurd he (Option.not_mem_none e)⟩
    · obtain ⟨i, b⟩ := j
      rcases copyThenAdd_cases hj with rfl | rfl
      · exact ⟨⟨⟨0, [8]⟩, ()⟩, List.mem_cons_self, (congrArg Prod.fst hc).symm⟩
      · rcases hc with hc | hc
        · exact ⟨⟨⟨2, [1]⟩, ()⟩, List.mem_cons_self, (congrArg Prod.fst hc).symm⟩
        · exact ⟨⟨⟨1, [1]⟩, ()⟩, List.mem_cons_of_mem _ List.mem_cons_self,
            (congrArg Prod.fst hc).symm⟩
    · obtain ⟨i, b⟩ := j
      rcases copyThenAdd_cases hj with rfl | rfl
      · exact ⟨⟨⟨1, [1]⟩, ()⟩, List.mem_cons_self, (congrArg Prod.fst hc).symm⟩
      · exact ⟨⟨⟨2, [1]⟩, ()⟩, List.mem_cons_self, (congrArg Prod.fst hc).symm⟩
  · refine ⟨by decide, fun p q hsub i c _ _ => ?_, fun p hp q hq i i' c _ _ _ hlocal h => ?_⟩
    · obtain ⟨rfl, rfl⟩ := hsublist p q hsub
      exact .inl (by decide)
    · rcases copyThenAdd_cases hp with rfl | rfl <;> rcases copyThenAdd_cases hq with rfl | rfl
      · exact .inl (by decide)
      · exact .inl (by decide)
      · -- the addition shares only the pipeline's buffer with the next copy
        have hshared : c = (1, 0) ∨ (c = (2, 0) ∧ (c = (0, i') ∨ c = (1, 0))) := by
          rcases h with ⟨hw, hr | hw'⟩ | ⟨-, hw⟩
          · exact .inr ⟨hw, .inl hr⟩
          · exact .inr ⟨hw, .inr hw'⟩
          · exact .inl hw
        have hsame : c = (1, 0) := by
          rcases hshared with rfl | ⟨rfl, h | h⟩
          · rfl
          · cases h
          · exact h
        exact absurd ⟨⟨1, [1]⟩, List.mem_cons_self, congrArg Prod.fst hsame⟩ hlocal
      · exact .inl (by decide)
  · refine ⟨fun i p hp c hlocal hc => ?_, fun q hq a ha hw => ?_, fun j hj a ha c hdata hc => ?_,
      fun _ _ _ _ _ _ _ _ _ _ => rfl⟩
    · obtain ⟨a, ha, hdata⟩ := hlocal
      rw [List.mem_singleton.mp ha] at hdata
      rcases copyThenAdd_cases hp with rfl | rfl
      · rw [show c = (0, i) from hc] at hdata
        exact absurd hdata Nat.zero_ne_one
      · refine ⟨copyBlock, List.Sublist.refl _, ?_⟩
        rcases hc with hc | hc
        · rw [show c = (2, 0) from hc] at hdata
          exact absurd hdata (by decide)
        · exact hc
    · rw [List.mem_singleton.mp ha] at hw ⊢
      rcases copyThenAdd_cases hq with rfl | rfl
      · exact ⟨addBlock, List.Sublist.refl _, by decide⟩
      · exact absurd hw (by decide)
    · rw [List.mem_singleton.mp ha] at hdata ⊢
      obtain ⟨i, b⟩ := j
      have hcell : c = (1, 0) := by
        rcases copyThenAdd_cases hj with rfl | rfl
        · rcases hc with hc | hc
          · rw [show c = (0, i) from hc] at hdata
            exact absurd hdata Nat.zero_ne_one
          · exact hc
        · rcases hc with (hc | hc) | hc
          · rw [show c = (2, 0) from hc] at hdata
            exact absurd hdata (by decide)
          · exact hc
          · rw [show c = (2, 0) from hc] at hdata
            exact absurd hdata (by decide)
      rw [hcell]
      decide

end TileLangNpuir.Pipeline
