import TileLangNpuir.Pipeline.Waits

/-!
# What is complete when a block runs

The rounds commit their groups one after the other, as long as the first stage has iterations to
run for. The block of a later stage that reads them waits until all groups of its own iteration
that it depends on are complete.
-/

namespace TileLangNpuir.Pipeline

open Tir CommitQueue

variable {R : Type}

namespace Rewriter

/-! ## The events of a round -/

section

variable (P : Rewriter) (ordered : List (PipelineBlock R))

/-- The commit groups of the first stage. -/
def groups : List (List ℤ) := (commitState P.remap ordered 0).groups

/-- The operation is the last one of its group. -/
def closes (j : ℤ × ℤ) : Bool := (P.groups ordered).any fun g => g.getLast? = some j.2

/-- What a round commits. -/
def commitsAt (t : ℤ) : List (List (ℤ × ℤ)) := (P.groups ordered).map fun g => g.map fun o => (t, o)

/-- The operations of the first stage among some blocks. -/
def issuedAt (t : ℤ) (blocks : List (PipelineBlock R × RewrittenBlock)) : List (ℤ × ℤ) :=
  ((blocks.map Prod.fst).filter fun b => b.asyncIn 0).map fun b => (t, b.order)

variable {P ordered} {blocks : List (PipelineBlock R × RewrittenBlock)} {globalHead : ℤ → Expr}
  {env : Env} {m : Mem}

theorem issued_waitEvents (b : PipelineBlock R × RewrittenBlock)
    (s : List (List (ℤ × ℤ)) × List (ℤ × ℤ)) :
    issued s ((P.waitEvents ordered blocks globalHead env m b).filterMap (AsyncEvent.op 0)) = s := by
  rw [waitEvents]
  split
  · rename_i stage _
    by_cases h : stage = 0
    · simp [AsyncEvent.op, h, issued]
    · simp [AsyncEvent.op, h, issued]
  · rfl

/-- Only blocks of the first stage are async. -/
def AsyncFirst (ordered : List (PipelineBlock R)) : Prop :=
  ∀ b ∈ ordered, b.async = true ↔ b.stage = 0

theorem AsyncFirst.asyncIn (h : AsyncFirst ordered) {b : PipelineBlock R} (hb : b ∈ ordered) :
    b.asyncIn 0 = true ↔ b.stage = 0 := by
  rw [PipelineBlock.asyncIn, Bool.and_eq_true, h b hb, decide_eq_true_eq, and_self_iff]

theorem AsyncFirst.asyncStages (h : AsyncFirst ordered) {stage : ℤ}
    (hstage : stage ∈ Pipeline.asyncStages ordered) : stage = 0 := by
  obtain ⟨b, hb, rfl⟩ := List.mem_map.mp hstage
  obtain ⟨hb, hasync⟩ := List.mem_filter.mp hb
  exact (h b hb).mp hasync

theorem commitEvents_of_async (h : AsyncFirst ordered) {b : PipelineBlock R × RewrittenBlock}
    (hb : b.1 ∈ ordered) (hstage : b.2.stage = b.1.stage) (horder : b.2.order = b.1.order)
    (hasync : b.1.asyncIn 0 = true) (t : ℤ) : (P.commitEvents ordered b).filterMap
      (AsyncEvent.op 0) = if P.closes ordered (t, b.1.order) then [.commit] else [] := by
  have hzero := (h.asyncIn hb).mp hasync
  have hmem : (0 : ℤ) ∈ Pipeline.asyncStages ordered :=
    List.mem_map.mpr ⟨b.1, List.mem_filter.mpr ⟨hb, (h b.1 hb).mpr hzero⟩, hzero⟩
  have hany : ((Pipeline.asyncStages ordered).any fun stage =>
      (commitState P.remap ordered stage).groups.any fun group =>
        group.getLast? = some b.2.order) = P.closes ordered (t, b.1.order) := by
    rw [closes, horder]
    refine Bool.eq_iff_iff.mpr ⟨fun hany => ?_, fun hany => List.any_eq_true.mpr ⟨0, hmem, hany⟩⟩
    obtain ⟨stage, hs, hany⟩ := List.any_eq_true.mp hany
    rw [h.asyncStages hs] at hany
    exact hany
  rw [commitEvents, hany, hstage, hzero]
  split <;> simp [AsyncEvent.op]

theorem commitEvents_of_not_async (h : AsyncFirst ordered) {b : PipelineBlock R × RewrittenBlock}
    (hb : b.1 ∈ ordered) (hstage : b.2.stage = b.1.stage) (hasync : b.1.asyncIn 0 = false) :
    (P.commitEvents ordered b).filterMap (AsyncEvent.op 0) = [] := by
  have hne : b.2.stage ≠ 0 := by
    rw [hstage]
    intro hzero
    rw [(h.asyncIn hb).mpr hzero] at hasync
    cases hasync
  rw [commitEvents]
  split
  · simp [AsyncEvent.op, hne]
  · rfl

/-- What some blocks of a round commit, and what they leave pending. The blocks of the first stage
all run. -/
theorem issued_blockEvents (h : AsyncFirst ordered) {t : ℤ}
    {part : List (PipelineBlock R × RewrittenBlock)}
    (hpart : ∀ b ∈ part, b.1 ∈ ordered ∧ b.2.stage = b.1.stage ∧ b.2.order = b.1.order ∧
      (b.1.asyncIn 0 = true →
        b.2.predicate.eval env m ≠ 0 ∧ b.2.accessIndex.eval env m = t))
    (s : List (List (ℤ × ℤ)) × List (ℤ × ℤ)) :
    issued s ((part.flatMap (P.blockEvents ordered blocks globalHead env m)).filterMap
        (AsyncEvent.op 0)) =
      issued s (opsOf (P.closes ordered) (issuedAt t part)) := by
  induction part generalizing s with
  | nil => rfl
  | cons b part ih =>
    obtain ⟨hb, hstage, horder, hrun⟩ := hpart b List.mem_cons_self
    have ih := ih fun c hc => hpart c (List.mem_cons_of_mem b hc)
    rw [List.flatMap_cons, List.filterMap_append, issued_append]
    cases hasync : b.1.asyncIn 0 with
    | true =>
      obtain ⟨hpred, hindex⟩ := hrun hasync
      have hissued : issuedAt t (b :: part) = [(t, b.1.order)] ++ issuedAt t part := by
        simp [issuedAt, hasync]
      have hevents : issued s ((P.blockEvents ordered blocks globalHead env m b).filterMap
          (AsyncEvent.op 0)) = issued s (opsOf (P.closes ordered) [(t, b.1.order)]) := by
        rw [blockEvents, if_neg hpred, List.filterMap_append, issued_append, issued_waitEvents,
          List.filterMap_cons, hindex, commitEvents_of_async h hb hstage horder hasync t]
        simp [AsyncEvent.op, hasync, opsOf]
      rw [hevents, ih, hissued, opsOf_append, issued_append]
    | false =>
      have hissued : issuedAt t (b :: part) = issuedAt t part := by
        simp [issuedAt, hasync]
      have hevents : issued s ((P.blockEvents ordered blocks globalHead env m b).filterMap
          (AsyncEvent.op 0)) = s := by
        rw [blockEvents]
        split
        · rfl
        · rw [List.filterMap_append, issued_append, issued_waitEvents, List.filterMap_cons,
            commitEvents_of_not_async h hb hstage hasync]
          simp [AsyncEvent.op, hasync, issued]
      rw [hevents, ih, hissued]

/-- A run of an instance comes after its waits. -/
theorem blockEvents_eq_append {b : PipelineBlock R × RewrittenBlock} {j : ℤ × PipelineBlock R}
    {pre post : List (AsyncEvent R)}
    (h : P.blockEvents ordered blocks globalHead env m b = pre ++ .run j :: post) :
    b.2.predicate.eval env m ≠ 0 ∧ j = (b.2.accessIndex.eval env m, b.1) ∧
      pre = P.waitEvents ordered blocks globalHead env m b := by
  have hwaits : ∀ e ∈ P.waitEvents ordered blocks globalHead env m b, ∀ j, e ≠ .run j := by
    intro e he j
    rw [waitEvents] at he
    split at he
    · rw [List.mem_singleton.mp he]
      intro heq
      cases heq
    · cases he
  have hcommits : ∀ e ∈ P.commitEvents ordered b, ∀ j, e ≠ .run j := by
    intro e he j
    rw [commitEvents] at he
    split at he
    · rw [List.mem_singleton.mp he]
      intro heq
      cases heq
    · cases he
  rw [blockEvents] at h
  split at h
  · exact absurd h (by simp)
  · rename_i hpred
    refine ⟨hpred, ?_⟩
    rcases List.append_eq_append_iff.mp h with ⟨c, hc, hrest⟩ | ⟨c, hc, hrest⟩
    · cases c with
      | nil =>
        injection (List.cons.inj hrest).1 with hj
        exact ⟨hj.symm, by rw [hc, List.append_nil]⟩
      | cons e c =>
        have hmem : AsyncEvent.run j ∈ P.commitEvents ordered b := by
          rw [(List.cons.inj hrest).2]
          exact List.mem_append_right _ List.mem_cons_self
        exact absurd rfl (hcommits _ hmem j)
    · cases c with
      | nil =>
        injection (List.cons.inj hrest).1 with hj
        exact ⟨hj, by rw [hc, List.append_nil]⟩
      | cons e c =>
        have hmem : AsyncEvent.run j ∈ P.waitEvents ordered blocks globalHead env m b := by
          rw [hc, (List.cons.inj hrest).1]
          exact List.mem_append_right _ List.mem_cons_self
        exact absurd rfl (hwaits _ hmem j)

/-! ## What a whole round commits -/

theorem flatten_commitsAt (h : Grouped P.remap ordered 0 ordered (commitState P.remap ordered 0))
    (t : ℤ) : (P.commitsAt ordered t).flatten =
      (ordered.filter fun b => b.asyncIn 0).map fun b => (t, b.order) := by
  rw [commitsAt, ← List.map_flatten, groups, h.flatten, List.map_map]
  rfl

/-- The operations of a round, in full, make the groups. -/
theorem issued_commitsAt (hsorted : ordered.Pairwise fun p q => p.order < q.order)
    (h : Grouped P.remap ordered 0 ordered (commitState P.remap ordered 0)) (t : ℤ)
    {part : List (List (ℤ × ℤ))} (hpart : ∀ g ∈ part, g ∈ P.commitsAt ordered t)
    (C : List (List (ℤ × ℤ))) :
    issued (C, []) (opsOf (P.closes ordered) part.flatten) = (C ++ part, []) := by
  have hnodup : (P.groups ordered).flatten.Nodup := by
    rw [groups, h.flatten]
    exact ((hsorted.filter _).map PipelineBlock.order fun _ _ hlt => hlt).imp ne_of_lt
  obtain ⟨heach, hdisjoint⟩ := List.nodup_flatten.mp hnodup
  -- an order is in one group
  have hsame : ∀ g ∈ P.groups ordered, ∀ g' ∈ P.groups ordered, ∀ o ∈ g, o ∈ g' → g = g' := by
    intro g hg g' hg' o ho ho'
    have hsymm : Std.Symm (List.Disjoint (α := ℤ)) := ⟨fun _ _ hd => hd.symm⟩
    by_contra hne
    exact hdisjoint.forall hg hg' hne ho ho'
  have hinj : Function.Injective fun o : ℤ => (t, o) := fun a b hab => (Prod.mk.inj hab).2
  refine issued_opsOf ?_ ?_ ?_ C
  · intro g hg
    obtain ⟨g, hg', rfl⟩ := List.mem_map.mp (hpart g hg)
    exact fun hnil => h.nonempty g hg' (List.map_eq_nil_iff.mp hnil)
  · intro g hg
    obtain ⟨g, hg', rfl⟩ := List.mem_map.mp (hpart g hg)
    exact (heach g hg').map hinj
  · intro g hg j hj
    obtain ⟨g, hg', rfl⟩ := List.mem_map.mp (hpart g hg)
    obtain ⟨o, ho, rfl⟩ := List.mem_map.mp hj
    rw [List.getLast?_map, closes, List.any_eq_true]
    refine ⟨fun ⟨g', hg'', hlast⟩ => ?_, fun hlast => ⟨g, hg', ?_⟩⟩
    · have hlast := of_decide_eq_true hlast
      rw [hsame g hg' g' hg'' o ho (List.mem_of_getLast? hlast), hlast]
      rfl
    · obtain ⟨o', ho', heq⟩ := Option.map_eq_some_iff.mp hlast
      rw [ho', hinj heq]
      exact decide_eq_true rfl

/-- A block is left out or runs with its own stage and order. -/
theorem rewriteBlock_spec {start stop : Expr} {v : Var} {needBoundCheck : Bool}
    {b : PipelineBlock R} {rb : RewrittenBlock}
    (h : P.rewriteBlock start stop v needBoundCheck b = some rb) :
    rb.stage = b.stage ∧ rb.order = b.order ∧ rb.isAsync = b.async := by
  rw [rewriteBlock] at h
  simp only [Option.ite_none_left_eq_some, Option.some_inj] at h
  obtain ⟨-, rfl⟩ := h
  exact ⟨rfl, rfl, rfl⟩

theorem mem_newBlocks {start stop : Expr} {v : Var} {needBoundCheck : Bool}
    {b : PipelineBlock R × RewrittenBlock} :
    b ∈ P.newBlocks ordered start stop v needBoundCheck ↔
      b.1 ∈ ordered ∧ P.rewriteBlock start stop v needBoundCheck b.1 = some b.2 := by
  simp only [newBlocks, List.mem_filterMap, Option.map_eq_some_iff]
  refine ⟨fun ⟨c, hc, rb, hrb, heq⟩ => ?_, fun ⟨hb, hrb⟩ => ⟨b.1, hb, b.2, hrb, rfl⟩⟩
  rw [← heq]
  exact ⟨hc, hrb⟩

theorem map_fst_newBlocks (start stop : Expr) (v : Var) (needBoundCheck : Bool) :
    (P.newBlocks ordered start stop v needBoundCheck).map Prod.fst =
      ordered.filter fun b => (P.rewriteBlock start stop v needBoundCheck b).isSome := by
  induction ordered with
  | nil => rfl
  | cons b ordered ih =>
    rw [newBlocks] at ih
    rw [newBlocks, List.filterMap_cons, List.filter_cons]
    cases P.rewriteBlock start stop v needBoundCheck b with
    | none => exact ih
    | some rb => exact congrArg (b :: ·) ih

end

end Rewriter

namespace PipelinedFor

/-! ## The rounds of a loop -/

section

variable {K : PipelinedFor R} {mayConflict : R → R → Bool} {A : Analyzer} {env : Env}
  {lo n first last t : ℤ} {start stop : Expr} {v : Var} {needBoundCheck : Bool}
  {ordered : List (PipelineBlock R)} {globalHead : ℤ → Expr} {m : Mem}

/-- The block reads what an async block writes. -/
def ReadsFrom (b a : PipelineBlock R) : Prop := ∃ w ∈ a.writes, ∃ r ∈ b.reads, w.buffer = r.buffer

/-- What is known of the first stage. -/
structure AsyncPipeline (K : PipelinedFor R) (A : Analyzer) (mayConflict : R → R → Bool)
    (ordered : List (PipelineBlock R)) : Prop where
  sorted : ordered.Pairwise fun p q => p.order < q.order
  later : ∀ a ∈ ordered, a.asyncIn 0 = true → ∀ b ∈ ordered, ReadsFrom b a → 0 < b.stage
  async : Rewriter.AsyncFirst ordered
  grouped : Grouped (K.rewriter A mayConflict).remap ordered 0 ordered
    (commitState (K.rewriter A mayConflict).remap ordered 0)

/-- In a round with an iteration for the first stage, its blocks run for it. -/
theorem AsyncPipeline.run (h : AsyncPipeline K A mayConflict ordered)
    (hb : Bounds K env lo n start stop first last) (hfresh : K.Fresh v)
    (ht : first ≤ t ∧ t < last) (hin : lo ≤ t ∧ t < lo + n) {b : PipelineBlock R × RewrittenBlock}
    (hmem : b ∈ (K.rewriter A mayConflict).newBlocks ordered start stop v needBoundCheck)
    (hasync : b.1.asyncIn 0 = true) :
    b.2.predicate.eval (roundEnv (A.provesOne (stop.sub start)) env v lo first t) m ≠ 0 ∧
      b.2.accessIndex.eval (roundEnv (A.provesOne (stop.sub start)) env v lo first t) m = t := by
  obtain ⟨hordered, hsome⟩ := Rewriter.mem_newBlocks.mp hmem
  have hzero := (h.async.asyncIn hordered).mp hasync
  have heval := eval_rewriteBlock (m := m) hb hfresh ht (fun _ => by omega) hsome
  rw [hzero, sub_zero] at heval
  exact ⟨heval.1.mpr hin, heval.2⟩

/-- And none of them is left out. -/
theorem AsyncPipeline.filter_newBlocks (h : AsyncPipeline K A mayConflict ordered)
    (hb : Bounds K env lo n start stop first last) (hfresh : K.Fresh v)
    (ht : first ≤ t ∧ t < last) (hin : lo ≤ t ∧ t < lo + n) :
    ((((K.rewriter A mayConflict).newBlocks ordered start stop v needBoundCheck).map Prod.fst).filter
        fun b => b.asyncIn 0) = ordered.filter fun b => b.asyncIn 0 := by
  rw [Rewriter.map_fst_newBlocks, List.filter_filter]
  refine List.filter_congr fun b hmem => ?_
  cases hasync : b.asyncIn 0 with
  | false => rfl
  | true =>
    rw [Bool.true_and]
    by_contra hnot
    have hnone : (K.rewriter A mayConflict).rewriteBlock start stop v needBoundCheck b = none := by
      simpa using hnot
    have hzero := (h.async.asyncIn hmem).mp hasync
    refine not_inBounds_of_rewriteBlock hb hfresh ht hnone ?_
    omega

/-- What the blocks of a round do. -/
theorem AsyncPipeline.issued_part (h : AsyncPipeline K A mayConflict ordered)
    (hb : Bounds K env lo n start stop first last) (hfresh : K.Fresh v)
    (ht : first ≤ t ∧ t < last) (hin : lo ≤ t ∧ t < lo + n)
    {part : List (PipelineBlock R × RewrittenBlock)}
    (hpart : ∀ b ∈ part, b ∈
      (K.rewriter A mayConflict).newBlocks ordered start stop v needBoundCheck)
    {blocks : List (PipelineBlock R × RewrittenBlock)}
    (s : List (List (ℤ × ℤ)) × List (ℤ × ℤ)) :
    issued s ((part.flatMap ((K.rewriter A mayConflict).blockEvents ordered blocks globalHead
        (roundEnv (A.provesOne (stop.sub start)) env v lo first t) m)).filterMap (AsyncEvent.op 0)) =
      issued s (opsOf ((K.rewriter A mayConflict).closes ordered) (Rewriter.issuedAt t part)) := by
  refine Rewriter.issued_blockEvents h.async (fun b hmem => ?_) s
  obtain ⟨hordered, hsome⟩ := Rewriter.mem_newBlocks.mp (hpart b hmem)
  obtain ⟨hstage, horder, -⟩ := Rewriter.rewriteBlock_spec hsome
  exact ⟨hordered, hstage, horder, h.run hb hfresh ht hin (hpart b hmem)⟩

/-- A round with an iteration for the first stage commits its groups. -/
theorem AsyncPipeline.issued_round (h : AsyncPipeline K A mayConflict ordered)
    (hb : Bounds K env lo n start stop first last) (hfresh : K.Fresh v)
    (ht : first ≤ t ∧ t < last) (hin : lo ≤ t ∧ t < lo + n)
    {blocks : List (PipelineBlock R × RewrittenBlock)} (C : List (List (ℤ × ℤ))) :
    issued (C, []) ((((K.rewriter A mayConflict).newBlocks ordered start stop v
        needBoundCheck).flatMap ((K.rewriter A mayConflict).blockEvents ordered blocks globalHead
          (roundEnv (A.provesOne (stop.sub start)) env v lo first t) m)).filterMap
            (AsyncEvent.op 0)) =
      (C ++ (K.rewriter A mayConflict).commitsAt ordered t, []) := by
  rw [h.issued_part hb hfresh ht hin (fun b hmem => hmem), Rewriter.issuedAt,
    h.filter_newBlocks hb hfresh ht hin, ← Rewriter.flatten_commitsAt h.grouped]
  exact Rewriter.issued_commitsAt h.sorted h.grouped t (fun g hg => hg) C

/-- A round without blocks of the first stage commits nothing. -/
theorem AsyncPipeline.issued_drained (h : AsyncPipeline K A mayConflict ordered)
    {part : List (PipelineBlock R × RewrittenBlock)}
    (hpart : ∀ b ∈ part, b ∈
      (K.rewriter A mayConflict).newBlocks ordered start stop v needBoundCheck)
    (hdrops : ∀ b ∈ ordered, b.stage = 0 →
      (K.rewriter A mayConflict).rewriteBlock start stop v needBoundCheck b = none)
    {blocks : List (PipelineBlock R × RewrittenBlock)} (C : List (List (ℤ × ℤ))) :
    issued (C, []) ((part.flatMap ((K.rewriter A mayConflict).blockEvents ordered blocks globalHead
        env m)).filterMap (AsyncEvent.op 0)) = (C, []) := by
  have hsync : ∀ b ∈ part, b.1.asyncIn 0 = false := by
    intro b hmem
    obtain ⟨hordered, hsome⟩ := Rewriter.mem_newBlocks.mp (hpart b hmem)
    by_contra hasync
    rw [hdrops b.1 hordered ((h.async.asyncIn hordered).mp (by simpa using hasync))] at hsome
    cases hsome
  have hnone : Rewriter.issuedAt 0 part = [] := by
    rw [Rewriter.issuedAt, List.map_eq_nil_iff, List.filter_eq_nil_iff]
    intro b hmem
    obtain ⟨c, hc, rfl⟩ := List.mem_map.mp hmem
    rw [hsync c hc]
    exact Bool.false_ne_true
  rw [Rewriter.issued_blockEvents (t := 0) h.async fun b hmem => ?_, hnone]
  · rfl
  · obtain ⟨hordered, hsome⟩ := Rewriter.mem_newBlocks.mp (hpart b hmem)
    obtain ⟨hstage, horder, -⟩ := Rewriter.rewriteBlock_spec hsome
    exact ⟨hordered, hstage, horder, fun hasync => by rw [hsync b hmem] at hasync; cases hasync⟩

/-! ## An emitted loop -/

/-- The environments of an emitted loop are those of its rounds. -/
theorem roundEnvs_eq (hb : Bounds K env lo n start stop first last) :
    (K.rewriter A mayConflict).roundEnvs start stop v env m =
      (span first (last - first).toNat).map
        (roundEnv (A.provesOne (stop.sub start)) env v lo first) := by
  rw [Rewriter.roundEnvs]
  cases hunit : A.provesOne (stop.sub start) with
  | true =>
    have hone := A.provesOne_sound _ hunit env m
    rw [eval_sub, hb.evalStart, hb.evalStop] at hone
    rw [hone]
    exact if_pos hunit
  | false =>
    have hmin : (K.rewriter A mayConflict).loop.min.eval env m = lo := hb.min m
    have hrewriter : (K.rewriter A mayConflict).analyzer.provesOne (stop.sub start) ≠ true := by
      rw [show (K.rewriter A mayConflict).analyzer = A from rfl, hunit]
      exact Bool.false_ne_true
    refine (if_neg hrewriter).trans ?_
    rw [eval_sub, hb.evalStart, hb.evalStop, hmin,
      show lo = first + (lo - first) by omega, ← map_add_span, List.map_map]
    refine List.map_congr_left fun t _ => ?_
    simp only [Function.comp_apply, roundEnv, Bool.false_eq_true, if_false]
    congr 1
    omega

/-- The events of a round. -/
def roundEvents (K : PipelinedFor R) (A : Analyzer) (mayConflict : R → R → Bool)
    (ordered : List (PipelineBlock R)) (start stop : Expr) (v : Var) (needBoundCheck : Bool)
    (globalHead : ℤ → Expr) (env : Env) (lo first : ℤ) (m : Mem) (t : ℤ) : List (AsyncEvent R) :=
  let blocks := (K.rewriter A mayConflict).newBlocks ordered start stop v needBoundCheck
  blocks.flatMap ((K.rewriter A mayConflict).blockEvents ordered blocks globalHead
    (roundEnv (A.provesOne (stop.sub start)) env v lo first t) m)

theorem emitEvents_eq (hb : Bounds K env lo n start stop first last) :
    (K.rewriter A mayConflict).emitEvents ordered start stop v
        ((K.rewriter A mayConflict).newBlocks ordered start stop v needBoundCheck) globalHead env m =
      (span first (last - first).toNat).flatMap
        (roundEvents K A mayConflict ordered start stop v needBoundCheck globalHead env lo first m) := by
  rw [Rewriter.emitEvents, roundEnvs_eq hb, List.flatMap_map]
  rfl

/-- Rounds that each commit something. -/
theorem issued_rounds (events : ℤ → List (AsyncEvent R)) (commits : ℤ → List (List (ℤ × ℤ)))
    {ts : List ℤ} (h : ∀ t ∈ ts, ∀ C, issued (C, []) ((events t).filterMap (AsyncEvent.op 0)) =
      (C ++ commits t, [])) (C : List (List (ℤ × ℤ))) :
    issued (C, []) ((ts.flatMap events).filterMap (AsyncEvent.op 0)) =
      (C ++ ts.flatMap commits, []) := by
  induction ts generalizing C with
  | nil => exact congrArg (·, []) (List.append_nil C).symm
  | cons t ts ih =>
    rw [List.flatMap_cons, List.filterMap_append, issued_append, h t List.mem_cons_self,
      ih fun t ht => h t (List.mem_cons_of_mem _ ht), List.flatMap_cons, List.append_assoc]

theorem span_eq_append {ts ts' : List ℤ} {count : ℕ} :
    ∀ {first : ℤ}, span first count = ts ++ t :: ts' → ts = span first (t - first).toNat ∧ first ≤ t := by
  induction ts generalizing count with
  | nil =>
    intro first h
    cases count with
    | zero => cases h
    | succ count =>
      rw [span_succ] at h
      obtain rfl := (List.cons.inj h).1
      exact ⟨by rw [sub_self]; rfl, le_rfl⟩
  | cons t' ts ih =>
    intro first h
    cases count with
    | zero => cases h
    | succ count =>
      rw [span_succ] at h
      obtain ⟨rfl, hrest⟩ := List.cons.inj h
      obtain ⟨hts, hle⟩ := ih hrest
      refine ⟨?_, by omega⟩
      rw [hts, show (t - first).toNat = (t - (first + 1)).toNat + 1 by omega, span_succ]

/-- Where an instance runs: its round, and the block in it. -/
theorem emitEvents_eq_append (hb : Bounds K env lo n start stop first last)
    {j : ℤ × PipelineBlock R} {pre post : List (AsyncEvent R)}
    (h : (K.rewriter A mayConflict).emitEvents ordered start stop v
        ((K.rewriter A mayConflict).newBlocks ordered start stop v needBoundCheck) globalHead env m =
      pre ++ .run j :: post) :
    ∃ t rb part rest, (first ≤ t ∧ t < last) ∧
      (K.rewriter A mayConflict).newBlocks ordered start stop v needBoundCheck =
        part ++ (j.2, rb) :: rest ∧
      rb.predicate.eval (roundEnv (A.provesOne (stop.sub start)) env v lo first t) m ≠ 0 ∧
      rb.accessIndex.eval (roundEnv (A.provesOne (stop.sub start)) env v lo first t) m = j.1 ∧
      pre = (span first (t - first).toNat).flatMap
          (roundEvents K A mayConflict ordered start stop v needBoundCheck globalHead env lo first m) ++
        (part.flatMap ((K.rewriter A mayConflict).blockEvents ordered
            ((K.rewriter A mayConflict).newBlocks ordered start stop v needBoundCheck) globalHead
            (roundEnv (A.provesOne (stop.sub start)) env v lo first t) m) ++
          (K.rewriter A mayConflict).waitEvents ordered
            ((K.rewriter A mayConflict).newBlocks ordered start stop v needBoundCheck) globalHead
            (roundEnv (A.provesOne (stop.sub start)) env v lo first t) m (j.2, rb)) := by
  rw [emitEvents_eq hb] at h
  obtain ⟨ts, t, ts', p, q, hspan, hround, rfl⟩ := exists_of_flatMap_eq _ h
  obtain ⟨part, b, rest, p', q', hblocks, hblock, rfl⟩ := exists_of_flatMap_eq _ hround
  obtain ⟨hpred, rfl, rfl⟩ := Rewriter.blockEvents_eq_append hblock
  obtain ⟨rfl, -⟩ := span_eq_append hspan
  have ht : t ∈ span first (last - first).toNat := by
    rw [hspan]
    exact List.mem_append_right _ List.mem_cons_self
  rw [mem_span] at ht
  exact ⟨t, b.2, part, rest, by omega, hblocks, hpred, rfl, rfl⟩

end

/-! ## What a wait leaves in flight -/

section

variable {P : Rewriter} {ordered : List (PipelineBlock R)} {lo : ℤ}

theorem span_append (lo : ℤ) (a b : ℕ) : span lo a ++ span (lo + a) b = span lo (a + b) := by
  induction a generalizing lo with
  | zero => simp [span]
  | succ a ih =>
    rw [span_succ, show a + 1 + b = a + b + 1 by omega, span_succ, List.cons_append, ← ih,
      show lo + ((a + 1 : ℕ) : ℤ) = lo + 1 + a by omega]

theorem length_flatMap_commitsAt (ts : List ℤ) :
    (ts.flatMap (P.commitsAt ordered)).length = ts.length * (P.groups ordered).length := by
  induction ts with
  | nil => simp
  | cons t ts ih =>
    rw [List.flatMap_cons, List.length_append, ih, Rewriter.commitsAt, List.length_map,
      List.length_cons]
    ring

/-- A wait that leaves no more groups in flight than came after group `d` of iteration `i`. -/
theorem completed_of_wait {T i i' : ℤ} {d k count : ℕ} {extra : List (List (ℤ × ℤ))}
    {pending : List (ℤ × ℤ)} {ops : List (Op (ℤ × ℤ))} {g : List ℤ} {o : ℤ} {q : State (ℤ × ℤ)}
    (hissued : issued ([], []) ops =
      ((span lo (T - lo).toNat).flatMap (P.commitsAt ordered) ++ extra, pending))
    (hi : lo ≤ i ∧ i < T) (hd : d < (P.groups ordered).length)
    (hcount : (i - lo) * (P.groups ordered).length + d + 1 + count ≤
      (T - lo) * (P.groups ordered).length + extra.length)
    (hk : k ≤ d) (hg : (P.groups ordered)[k]? = some g) (ho : o ∈ g) (hi' : lo ≤ i' ∧ i' ≤ i)
    (hruns : Runs empty (ops ++ [.wait count]) q) : Completed q (i', o) := by
  -- the iterations before `i`, and the groups of `i` to `d`
  have hspan : span lo (T - lo).toNat =
      span lo (i - lo).toNat ++ i :: span (i + 1) (T - i - 1).toNat := by
    have hsucc := span_succ i (T - i - 1).toNat
    rw [← hsucc]
    have happend := span_append lo (i - lo).toNat ((T - i - 1).toNat + 1)
    rw [show lo + ((i - lo).toNat : ℤ) = i by omega] at happend
    rw [happend]
    congr 1
    omega
  have hlength : (span lo (i - lo).toNat).length = (i - lo).toNat := by
    rw [span, List.length_map, List.length_range]
  have htake : (P.commitsAt ordered i).take (d + 1) <+: P.commitsAt ordered i :=
    List.take_prefix _ _
  refine hruns.completed ((span lo (i - lo).toNat).flatMap (P.commitsAt ordered) ++
    (P.commitsAt ordered i).take (d + 1)) ?_ ?_ ?_ (List.mem_map.mpr ⟨o, ho, rfl⟩)
  · rw [hissued, hspan, List.flatMap_append, List.flatMap_cons, List.append_assoc]
    refine (List.prefix_append_right_inj _).mpr ?_
    rw [List.append_assoc]
    exact htake.trans (List.prefix_append _ _)
  · have hT : (span lo (T - lo).toNat).length = (T - lo).toNat := by
      rw [span, List.length_map, List.length_range]
    rw [hissued]
    simp only [List.length_append, length_flatMap_commitsAt, List.length_take, hlength, hT,
      Rewriter.commitsAt, List.length_map]
    rw [min_eq_left (by omega)]
    have h₁ : (((i - lo).toNat : ℕ) : ℤ) = i - lo := by omega
    have h₂ : (((T - lo).toNat : ℕ) : ℤ) = T - lo := by omega
    rw [← h₁, ← h₂] at hcount
    have : (i - lo).toNat * (P.groups ordered).length + d + 1 + count ≤
        (T - lo).toNat * (P.groups ordered).length + extra.length := by exact_mod_cast hcount
    omega
  · by_cases heq : i' = i
    · subst heq
      refine List.mem_append_right _ (List.mem_of_getElem? (i := k) ?_)
      rw [List.getElem?_take_of_lt (by omega), Rewriter.commitsAt, List.getElem?_map, hg]
      rfl
    · refine List.mem_append_left _ (List.mem_flatMap.mpr ⟨i', ?_, ?_⟩)
      · rw [mem_span]
        omega
      · exact List.mem_map.mpr ⟨g, List.mem_of_getElem? hg, rfl⟩

/-! ## The wait of a block -/

theorem mem_dstBuffers {remap : Buffer → Option Buffer} {a : PipelineBlock R} (ha : a ∈ ordered)
    (hasync : a.asyncIn 0 = true) {w : BufferRegion Buffer R} (hw : w ∈ a.writes) :
    w.buffer ∈ dstBuffers remap ordered 0 ∧
      newBuffer remap w.buffer ∈ dstBuffers remap ordered 0 := by
  have hall : ∀ x ∈ w.buffer :: (remap w.buffer).toList, x ∈ dstBuffers remap ordered 0 := by
    intro x hx
    exact List.mem_flatMap.mpr ⟨a, List.mem_filter.mpr ⟨ha, hasync⟩,
      List.mem_flatMap.mpr ⟨w, hw, hx⟩⟩
  refine ⟨hall _ List.mem_cons_self, hall _ ?_⟩
  rw [newBuffer]
  cases remap w.buffer with
  | none => exact List.mem_cons_self
  | some x => exact List.mem_cons_of_mem _ List.mem_cons_self

/-- No block depends on several stages. -/
theorem producerStage_eq (h : Rewriter.AsyncFirst ordered) (remap : Buffer → Option Buffer)
    (b : PipelineBlock R) : producerStage remap ordered b = some none ∨
      producerStage remap ordered b = some (some 0) := by
  rw [producerStage]
  have hall : ∀ stage ∈ b.reads.flatMap fun r => (asyncStages ordered).filter fun stage =>
      decide (stage ≤ b.stage) &&
        decide (newBuffer remap r.buffer ∈ dstBuffers remap ordered stage), stage = 0 := by
    intro stage hstage
    obtain ⟨r, -, hr⟩ := List.mem_flatMap.mp hstage
    exact h.asyncStages (List.mem_filter.mp hr).1
  split
  · exact .inl rfl
  · rename_i stage rest heq
    rw [heq] at hall
    have hzero := hall stage List.mem_cons_self
    refine .inr ?_
    rw [if_pos, hzero]
    refine List.all_eq_true.mpr fun stage' h' => decide_eq_true ?_
    rw [hall stage' (List.mem_cons_of_mem _ h'), hzero]

/-- A block that reads what the first stage writes depends on it. -/
theorem producerStage_of_reads (h : Rewriter.AsyncFirst ordered) {remap : Buffer → Option Buffer}
    {a b : PipelineBlock R} (ha : a ∈ ordered) (hasync : a.asyncIn 0 = true) (hb : 0 ≤ b.stage)
    (hreads : ReadsFrom b a) : producerStage remap ordered b = some (some 0) := by
  refine (producerStage_eq h remap b).resolve_left fun hnone => ?_
  obtain ⟨w, hw, r, hr, hwr⟩ := hreads
  have hzero := (h.asyncIn ha).mp hasync
  have hmem : (0 : ℤ) ∈ b.reads.flatMap fun r => (asyncStages ordered).filter fun stage =>
      decide (stage ≤ b.stage) &&
        decide (newBuffer remap r.buffer ∈ dstBuffers remap ordered stage) := by
    refine List.mem_flatMap.mpr ⟨r, hr, List.mem_filter.mpr ⟨?_, ?_⟩⟩
    · exact List.mem_map.mpr ⟨a, List.mem_filter.mpr ⟨ha, (h a ha).mpr hzero⟩, hzero⟩
    · rw [← hwr, Bool.and_eq_true]
      exact ⟨decide_eq_true hb, decide_eq_true (mem_dstBuffers ha hasync hw).2⟩
  rw [producerStage] at hnone
  split at hnone
  · rename_i heq
    rw [heq] at hmem
    exact List.not_mem_nil hmem
  · split at hnone
    · cases hnone
    · cases hnone

theorem consumes_of_reads {remap : Buffer → Option Buffer} {a b : PipelineBlock R} (ha : a ∈ ordered)
    (hasync : a.asyncIn 0 = true) (hb : 0 ≤ b.stage) (hreads : ReadsFrom b a) :
    b.consumes remap ordered 0 = true := by
  obtain ⟨w, hw, r, hr, hwr⟩ := hreads
  rw [PipelineBlock.consumes, Bool.and_eq_true]
  refine ⟨decide_eq_true hb, List.any_eq_true.mpr ⟨r, hr, decide_eq_true ?_⟩⟩
  rw [← hwr]
  exact (mem_dstBuffers ha hasync hw).1

/-- The group of a buffer that is read is one the block depends on. -/
theorem mem_dependentGroups {remap : Buffer → Option Buffer} {b : PipelineBlock R}
    {w r : BufferRegion Buffer R} (hr : r ∈ b.reads) (hwr : w.buffer = r.buffer) {d : ℕ}
    (hd : (commitState remap ordered 0).bufferToGroup.lookup (newBuffer remap w.buffer) = some d) :
    d ∈ dependentGroups remap ordered 0 b :=
  List.mem_filterMap.mpr ⟨r, hr, by rw [← hwr]; exact hd⟩

variable {blocks : List (PipelineBlock R × RewrittenBlock)} {globalHead : Expr} {env : Env} {m : Mem}
  {b : PipelineBlock R × RewrittenBlock} {i head : ℤ}

/-- The count where the loop has no block of the first stage. -/
theorem eval_waitCount_of_none (ordered : List (PipelineBlock R))
    (hlocal : Rewriter.localHead blocks 0 = none)
    (hhead : globalHead.eval env m = head) (hindex : b.2.accessIndex.eval env m = i) :
    (P.waitCount ordered blocks globalHead 0 b).eval env m =
      (P.groups ordered).length * (head - i) +
        relax (dependentGroups P.remap ordered 0 b.1) (P.groups ordered).length := by
  simp only [Rewriter.waitCount, hlocal]
  rw [eval_add, eval_foldl_add, eval_int, eval_int, zero_add]
  congr 1
  refine sum_map_const fun g _ => ?_
  rw [eval_sub, hhead, hindex]

/-- The count where it has: the groups after the block are one iteration behind. -/
theorem eval_waitCount_of_some (globalHead : Expr) {e : Expr} (hlocal : Rewriter.localHead blocks 0 = some e)
    (hhead : e.eval env m = head) (hindex : b.2.accessIndex.eval env m = i)
    {gs gs' : List (List ℤ)} (hgroups : P.groups ordered = gs ++ gs')
    (hne : ∀ g ∈ P.groups ordered, g ≠ []) (hbefore : ∀ o ∈ gs.flatten, o < b.2.order)
    (hafter : ∀ o ∈ gs'.flatten, b.2.order < o) :
    (P.waitCount ordered blocks globalHead 0 b).eval env m =
      gs.length * (head - i) + gs'.length * (head - 1 - i) +
        relax (dependentGroups P.remap ordered 0 b.1) (P.groups ordered).length := by
  have hfirst : ∀ g ∈ P.groups ordered, g.headD 0 ∈ g := by
    intro g hg
    obtain ⟨o, g, rfl⟩ := List.exists_cons_of_ne_nil (hne g hg)
    exact List.mem_cons_self
  simp only [Rewriter.waitCount, hlocal]
  rw [eval_add, eval_foldl_add, eval_int, eval_int, zero_add,
    show (commitState P.remap ordered 0).groups = gs ++ gs' from hgroups, ← hgroups,
    hgroups, List.map_append, List.sum_append]
  congr 1
  congr 1
  · refine sum_map_const fun g hg => ?_
    have hmem : g ∈ P.groups ordered := hgroups ▸ List.mem_append_left _ hg
    have hlt := hbefore _ (List.mem_flatten_of_mem hg (hfirst g hmem))
    rw [if_neg (by omega), eval_sub, hhead, hindex]
  · refine sum_map_const fun g hg => ?_
    have hmem : g ∈ P.groups ordered := hgroups ▸ List.mem_append_right _ hg
    have hlt := hafter _ (List.mem_flatten_of_mem hg (hfirst g hmem))
    rw [if_pos hlt, eval_sub, eval_sub, hhead, hindex, eval_int]

end

/-! ## The blocks of later stages -/

section

variable {K : PipelinedFor R} {mayConflict : R → R → Bool} {A : Analyzer} {env : Env}
  {lo n first last : ℤ} {start stop : Expr} {v : Var} {needBoundCheck : Bool}
  {ordered : List (PipelineBlock R)} {globalHead : ℤ → Expr} {m : Mem}

/-- What a block reads is in a group it depends on, or in an earlier one. -/
theorem AsyncPipeline.exists_group (h : AsyncPipeline K A mayConflict ordered)
    {a b : PipelineBlock R} (ha : a ∈ ordered) (hasync : a.asyncIn 0 = true)
    (hreads : ReadsFrom b a) :
    ∃ d k g, d ∈ dependentGroups (K.rewriter A mayConflict).remap ordered 0 b ∧
      d < ((K.rewriter A mayConflict).groups ordered).length ∧ k ≤ d ∧
      ((K.rewriter A mayConflict).groups ordered)[k]? = some g ∧ a.order ∈ g := by
  obtain ⟨w, hw, r, hr, hwr⟩ := hreads
  obtain ⟨d, hd, hlt, k, g, hk, hg, ho⟩ := h.grouped.lookup a ha hasync w hw
  exact ⟨d, k, g, mem_dependentGroups hr hwr hd, hlt, hk, hg, ho⟩

/-- The wait of a block that reads. -/
theorem AsyncPipeline.filterMap_waitEvents (h : AsyncPipeline K A mayConflict ordered)
    {a : PipelineBlock R} (ha : a ∈ ordered) (hasync : a.asyncIn 0 = true)
    {b : PipelineBlock R × RewrittenBlock} (hb : 0 ≤ b.1.stage) (hreads : ReadsFrom b.1 a)
    {blocks : List (PipelineBlock R × RewrittenBlock)} :
    ((K.rewriter A mayConflict).waitEvents ordered blocks globalHead env m b).filterMap
        (AsyncEvent.op 0) =
      [.wait (((K.rewriter A mayConflict).waitCount ordered blocks (globalHead 0) 0 b).eval env
        m).toNat] := by
  rw [Rewriter.waitEvents, producerStage_of_reads h.async ha hasync hb hreads]
  rfl

/-- The rounds of a loop go on from the ones before. -/
theorem AsyncPipeline.issued_filling (h : AsyncPipeline K A mayConflict ordered)
    (hb : Bounds K env lo n start stop first last) (hfresh : K.Fresh v) (hfirst : lo ≤ first)
    (hlast : last ≤ lo + n) {before : List (AsyncEvent R)}
    (hbefore : issued ([], []) (before.filterMap (AsyncEvent.op 0)) =
      ((span lo (first - lo).toNat).flatMap ((K.rewriter A mayConflict).commitsAt ordered), []))
    {t : ℤ} (ht : first ≤ t ∧ t ≤ last) :
    issued ([], []) ((before ++ (span first (t - first).toNat).flatMap (roundEvents K A mayConflict
        ordered start stop v needBoundCheck globalHead env lo first m)).filterMap
          (AsyncEvent.op 0)) =
      ((span lo (t - lo).toNat).flatMap ((K.rewriter A mayConflict).commitsAt ordered), []) := by
  have hspan := span_append lo (first - lo).toNat (t - first).toNat
  rw [show lo + ((first - lo).toNat : ℤ) = first by omega,
    show (first - lo).toNat + (t - first).toNat = (t - lo).toNat by omega] at hspan
  rw [List.filterMap_append, issued_append, hbefore,
    issued_rounds _ ((K.rewriter A mayConflict).commitsAt ordered) fun t' ht' C => ?_,
    ← List.flatMap_append, hspan]
  rw [mem_span] at ht'
  exact h.issued_round hb hfresh (by omega) (by omega) C

theorem AsyncPipeline.issued_emitEvents (h : AsyncPipeline K A mayConflict ordered)
    (hb : Bounds K env lo n start stop first last) (hfresh : K.Fresh v) (hfirst : lo ≤ first)
    (hle : first ≤ last) (hlast : last ≤ lo + n) {before : List (AsyncEvent R)}
    (hbefore : issued ([], []) (before.filterMap (AsyncEvent.op 0)) =
      ((span lo (first - lo).toNat).flatMap ((K.rewriter A mayConflict).commitsAt ordered), [])) :
    issued ([], []) ((before ++ (K.rewriter A mayConflict).emitEvents ordered start stop v
        ((K.rewriter A mayConflict).newBlocks ordered start stop v needBoundCheck) globalHead env
          m).filterMap (AsyncEvent.op 0)) =
      ((span lo (last - lo).toNat).flatMap ((K.rewriter A mayConflict).commitsAt ordered), []) := by
  rw [emitEvents_eq hb]
  exact h.issued_filling hb hfresh hfirst hlast hbefore ⟨hle, le_rfl⟩

/-- While the first stage has iterations to run for. -/
theorem AsyncPipeline.completed_filling (h : AsyncPipeline K A mayConflict ordered)
    (hb : Bounds K env lo n start stop first last) (hfresh : K.Fresh v) (hfirst : lo ≤ first)
    (hlast : last ≤ lo + n)
    (hcheck : needBoundCheck = false → ∀ t, first ≤ t → t < last → ∀ b ∈ ordered,
      lo ≤ t - b.stage ∧ t - b.stage < lo + n)
    {before : List (AsyncEvent R)}
    (hbefore : issued ([], []) (before.filterMap (AsyncEvent.op 0)) =
      ((span lo (first - lo).toNat).flatMap ((K.rewriter A mayConflict).commitsAt ordered), []))
    {i : ℤ} {a b : PipelineBlock R} {pre post : List (AsyncEvent R)}
    (hemit : (K.rewriter A mayConflict).emitEvents ordered start stop v
        ((K.rewriter A mayConflict).newBlocks ordered start stop v needBoundCheck) globalHead env m =
      pre ++ .run (i, b) :: post)
    (ha : a ∈ ordered) (hasync : a.asyncIn 0 = true)
    (hreads : ReadsFrom b a) {i' : ℤ} (hi' : lo ≤ i' ∧ i' ≤ i) {q : State (ℤ × ℤ)}
    (hruns : Runs empty ((before ++ pre).filterMap (AsyncEvent.op 0)) q) :
    Completed q (i', a.order) := by
  obtain ⟨t, rb, part, rest, ht, hblocks, hpred, hindex, rfl⟩ := emitEvents_eq_append hb hemit
  have hpart : ∀ c ∈ part, c ∈
      (K.rewriter A mayConflict).newBlocks ordered start stop v needBoundCheck := fun c hc => by
    rw [hblocks]
    exact List.mem_append_left _ hc
  have hmem : (b, rb) ∈
      (K.rewriter A mayConflict).newBlocks ordered start stop v needBoundCheck := by
    rw [hblocks]
    exact List.mem_append_right _ List.mem_cons_self
  obtain ⟨hordered, hsome⟩ := Rewriter.mem_newBlocks.mp hmem
  obtain ⟨-, horder, -⟩ := Rewriter.rewriteBlock_spec hsome
  obtain ⟨hin, hindex'⟩ := eval_rewriteBlock (m := m) hb hfresh ht
    (fun hf => hcheck hf t ht.1 ht.2 b hordered) hsome
  have hi : i = t - b.stage := hindex.symm.trans hindex'
  have hstage : 0 < b.stage := h.later a ha hasync b hordered hreads
  have hlo : lo ≤ i := hi'.1.trans hi'.2
  have htn : lo ≤ t ∧ t < lo + n := ⟨hfirst.trans ht.1, ht.2.trans_le hlast⟩
  have hsync : b.asyncIn 0 = false := by
    by_contra hnot
    exact hstage.ne' ((h.async.asyncIn hordered).mp (by simpa using hnot))
  -- the groups before the block, and those after it
  have hasyncs : ((K.rewriter A mayConflict).groups ordered).flatten =
      ((part.map Prod.fst).filter fun c => c.asyncIn 0).map PipelineBlock.order ++
        ((rest.map Prod.fst).filter fun c => c.asyncIn 0).map PipelineBlock.order := by
    rw [Rewriter.groups, h.grouped.flatten, ← h.filter_newBlocks hb hfresh ht htn, hblocks,
      List.map_append, List.map_cons, List.filter_append, List.filter_cons_of_neg (by simp [hsync]),
      List.map_append]
  have hsorted : (part.map Prod.fst ++ b :: rest.map Prod.fst).Pairwise
      fun p q => p.order < q.order := by
    have hsub := h.sorted.filter fun c =>
      ((K.rewriter A mayConflict).rewriteBlock start stop v needBoundCheck c).isSome
    rw [← Rewriter.map_fst_newBlocks, hblocks, List.map_append] at hsub
    exact hsub
  have hbefore' : ∀ o ∈ ((part.map Prod.fst).filter fun c => c.asyncIn 0).map PipelineBlock.order,
      o < b.order := by
    intro o ho
    obtain ⟨c, hc, rfl⟩ := List.mem_map.mp ho
    exact (List.pairwise_append.mp hsorted).2.2 c (List.mem_filter.mp hc).1 b List.mem_cons_self
  have hafter : ∀ o ∈ ((rest.map Prod.fst).filter fun c => c.asyncIn 0).map PipelineBlock.order,
      b.order < o := by
    intro o ho
    obtain ⟨c, hc, rfl⟩ := List.mem_map.mp ho
    exact (List.pairwise_cons.mp (List.pairwise_append.mp hsorted).2.1).1 c (List.mem_filter.mp hc).1
  obtain ⟨gs, gs', hgroups, hgs, hgs'⟩ := exists_split hasyncs hbefore' hafter h.grouped.nonempty
    (h.grouped.split b hordered hsync (consumes_of_reads ha hasync hstage.le hreads))
  obtain ⟨d, k, g, hdep, hd, hk, hg, ho⟩ := h.exists_group ha hasync hreads
  -- some block of the first stage is there, so the count is taken from it
  obtain ⟨e, hlocal, hhead⟩ : ∃ e, Rewriter.localHead
      ((K.rewriter A mayConflict).newBlocks ordered start stop v needBoundCheck) 0 = some e ∧
        e.eval (roundEnv (A.provesOne (stop.sub start)) env v lo first t) m = t := by
    have hfilter : ∃ c, (((K.rewriter A mayConflict).newBlocks ordered start stop v
        needBoundCheck).filter fun c => c.2.isAsync && c.2.stage = 0).getLast? = some c := by
      have hkept : a ∈ (((K.rewriter A mayConflict).newBlocks ordered start stop v
          needBoundCheck).map Prod.fst).filter fun c => c.asyncIn 0 := by
        rw [h.filter_newBlocks hb hfresh ht htn]
        exact List.mem_filter.mpr ⟨ha, hasync⟩
      obtain ⟨c, hc, rfl⟩ := List.mem_map.mp (List.mem_filter.mp hkept).1
      obtain ⟨hstage', -, hasync'⟩ := Rewriter.rewriteBlock_spec (Rewriter.mem_newBlocks.mp hc).2
      rw [← Option.isSome_iff_exists, List.getLast?_isSome]
      refine List.ne_nil_of_mem (List.mem_filter.mpr ⟨hc, ?_⟩)
      rw [hasync', hstage']
      exact hasync
    obtain ⟨c, hc⟩ := hfilter
    obtain ⟨hcmem, hcasync⟩ := List.mem_filter.mp (List.mem_of_getLast? hc)
    obtain ⟨hstage', -, hasync'⟩ := Rewriter.rewriteBlock_spec (Rewriter.mem_newBlocks.mp hcmem).2
    rw [hasync', hstage'] at hcasync
    refine ⟨c.2.accessIndex, by rw [Rewriter.localHead, hc]; rfl, ?_⟩
    exact (h.run hb hfresh ht htn hcmem hcasync).2
  have hcount := eval_waitCount_of_some (globalHead 0) (b := (b, rb)) hlocal hhead hindex
    hgroups h.grouped.nonempty (by rw [hgs, horder]; exact hbefore')
    (by rw [hgs', horder]; exact hafter)
  have hrelax := relax_le hdep hd
  -- what was committed before the wait
  have hissued : issued ([], []) ((before ++ ((span first (t - first).toNat).flatMap
        (roundEvents K A mayConflict ordered start stop v needBoundCheck globalHead env lo first m) ++
      part.flatMap ((K.rewriter A mayConflict).blockEvents ordered
        ((K.rewriter A mayConflict).newBlocks ordered start stop v needBoundCheck) globalHead
        (roundEnv (A.provesOne (stop.sub start)) env v lo first t) m))).filterMap
          (AsyncEvent.op 0)) =
      ((span lo (t - lo).toNat).flatMap ((K.rewriter A mayConflict).commitsAt ordered) ++
        gs.map fun g => g.map fun o => (t, o), []) := by
    have hissuedAt : Rewriter.issuedAt t part = (gs.map fun g => g.map fun o => (t, o)).flatten := by
      rw [← List.map_flatten, hgs, List.map_map]
      rfl
    rw [← List.append_assoc, List.filterMap_append, issued_append,
      h.issued_filling hb hfresh hfirst hlast hbefore ⟨ht.1, ht.2.le⟩,
      h.issued_part hb hfresh ht htn hpart, hissuedAt]
    refine Rewriter.issued_commitsAt h.sorted h.grouped t (fun g hg => ?_) _
    obtain ⟨g', hg', rfl⟩ := List.mem_map.mp hg
    exact List.mem_map.mpr ⟨g', hgroups ▸ List.mem_append_left _ hg', rfl⟩
  rw [← List.append_assoc, ← List.append_assoc, List.filterMap_append,
    h.filterMap_waitEvents ha hasync (b := (b, rb)) hstage.le hreads] at hruns
  rw [List.append_assoc] at hruns
  refine completed_of_wait hissued ⟨hlo, by omega⟩ hd ?_ hk hg ho hi' hruns
  have hlength : (((K.rewriter A mayConflict).groups ordered).length : ℤ) =
      gs.length + gs'.length := by
    rw [hgroups, List.length_append]
    exact Nat.cast_add _ _
  rw [hcount, List.length_map, hlength, Int.toNat_of_nonneg]
  · have : (relax (dependentGroups (K.rewriter A mayConflict).remap ordered 0 b)
        ((K.rewriter A mayConflict).groups ordered).length : ℤ) + d + 1 ≤
          gs.length + gs'.length := by
      omega
    linarith
  · have hgap : (0 : ℤ) ≤ t - 1 - i := by omega
    have hgap' : (0 : ℤ) ≤ t - i := by omega
    positivity

/-- Where the first stage has none left, and its blocks are left out. -/
theorem AsyncPipeline.completed_drained (h : AsyncPipeline K A mayConflict ordered)
    (hb : Bounds K env lo n start stop (lo + n) last) (hfresh : K.Fresh v)
    (hdrops : ∀ b ∈ ordered, b.stage = 0 →
      (K.rewriter A mayConflict).rewriteBlock start stop v true b = none)
    (hhead : ∀ t, (globalHead 0).eval
      (roundEnv (A.provesOne (stop.sub start)) env v lo (lo + n) t) m = lo + n - 1)
    {before : List (AsyncEvent R)}
    (hbefore : issued ([], []) (before.filterMap (AsyncEvent.op 0)) =
      ((span lo n.toNat).flatMap ((K.rewriter A mayConflict).commitsAt ordered), []))
    {i : ℤ} {a b : PipelineBlock R} {pre post : List (AsyncEvent R)}
    (hemit : (K.rewriter A mayConflict).emitEvents ordered start stop v
        ((K.rewriter A mayConflict).newBlocks ordered start stop v true) globalHead env m =
      pre ++ .run (i, b) :: post)
    (ha : a ∈ ordered) (hasync : a.asyncIn 0 = true)
    (hreads : ReadsFrom b a) {i' : ℤ} (hi' : lo ≤ i' ∧ i' ≤ i) {q : State (ℤ × ℤ)}
    (hruns : Runs empty ((before ++ pre).filterMap (AsyncEvent.op 0)) q) :
    Completed q (i', a.order) := by
  obtain ⟨t, rb, part, rest, ht, hblocks, hpred, hindex, rfl⟩ := emitEvents_eq_append hb hemit
  have hpart : ∀ c ∈ part, c ∈ (K.rewriter A mayConflict).newBlocks ordered start stop v true :=
    fun c hc => by
      rw [hblocks]
      exact List.mem_append_left _ hc
  have hmem : (b, rb) ∈ (K.rewriter A mayConflict).newBlocks ordered start stop v true := by
    rw [hblocks]
    exact List.mem_append_right _ List.mem_cons_self
  obtain ⟨hordered, hsome⟩ := Rewriter.mem_newBlocks.mp hmem
  obtain ⟨hin, hindex'⟩ := eval_rewriteBlock (m := m) hb hfresh ht (fun hf => Bool.noConfusion hf)
    hsome
  have hi : i = t - b.stage := hindex.symm.trans hindex'
  have hstage : 0 < b.stage := h.later a ha hasync b hordered hreads
  have hin : lo ≤ i ∧ i < lo + n := hi ▸ hin.mp hpred
  obtain ⟨d, k, g, hdep, hd, hk, hg, ho⟩ := h.exists_group ha hasync hreads
  -- no block of the first stage is there, so the count is taken from the loops before
  have hlocal : Rewriter.localHead
      ((K.rewriter A mayConflict).newBlocks ordered start stop v true) 0 = none := by
    rw [Rewriter.localHead, Option.map_eq_none_iff, List.getLast?_eq_none_iff,
      List.filter_eq_nil_iff]
    intro c hc hboth
    obtain ⟨hc, hsome⟩ := Rewriter.mem_newBlocks.mp hc
    obtain ⟨hstage', -, -⟩ := Rewriter.rewriteBlock_spec hsome
    rw [Bool.and_eq_true, decide_eq_true_eq, hstage'] at hboth
    rw [hdrops c.1 hc hboth.2] at hsome
    cases hsome
  have hcount := eval_waitCount_of_none (b := (b, rb)) (P := K.rewriter A mayConflict) ordered
    hlocal (hhead t) hindex
  have hrelax := relax_le hdep hd
  -- nothing more is committed
  have hissued : issued ([], []) ((before ++ ((span (lo + n) (t - (lo + n)).toNat).flatMap
        (roundEvents K A mayConflict ordered start stop v true globalHead env lo (lo + n) m) ++
      part.flatMap ((K.rewriter A mayConflict).blockEvents ordered
        ((K.rewriter A mayConflict).newBlocks ordered start stop v true) globalHead
        (roundEnv (A.provesOne (stop.sub start)) env v lo (lo + n) t) m))).filterMap
          (AsyncEvent.op 0)) =
      ((span lo (lo + n - lo).toNat).flatMap ((K.rewriter A mayConflict).commitsAt ordered) ++ [],
        []) := by
    rw [List.filterMap_append, issued_append, hbefore, List.filterMap_append, issued_append,
      issued_rounds _ (fun _ => []) fun t' _ C => ?_, h.issued_drained hpart hdrops,
      add_sub_cancel_left, List.flatMap_eq_nil_iff.mpr fun _ _ => rfl]
    rw [roundEvents, h.issued_drained (fun _ hc => hc) hdrops, List.append_nil]
  rw [← List.append_assoc, ← List.append_assoc, List.filterMap_append,
    h.filterMap_waitEvents ha hasync (b := (b, rb)) hstage.le hreads] at hruns
  rw [List.append_assoc] at hruns
  refine completed_of_wait hissued hin hd ?_ hk hg ho hi' hruns
  rw [hcount, List.length_nil, Int.toNat_of_nonneg]
  · have : (relax (dependentGroups (K.rewriter A mayConflict).remap ordered 0 b)
        ((K.rewriter A mayConflict).groups ordered).length : ℤ) + d + 1 ≤
          ((K.rewriter A mayConflict).groups ordered).length := by
      omega
    push_cast
    linarith
  · have hgap : (0 : ℤ) ≤ lo + n - 1 - i := by omega
    positivity

/-! ## The three loops -/

/-- `producer_head` after a loop where the first stage has iterations to run for. -/
theorem AsyncPipeline.eval_advance (h : AsyncPipeline K A mayConflict ordered)
    (hb : Bounds K env lo n start stop first last) (hfresh : K.Fresh v)
    (hfirst : lo ≤ first) (hle : first ≤ last) (hlast : last ≤ lo + n) {a : PipelineBlock R}
    (ha : a ∈ ordered) (hasync : a.asyncIn 0 = true)
    (hhead : (globalHead 0).eval env m = first - 1) :
    ((K.rewriter A mayConflict).advance ordered ((K.rewriter A mayConflict).newBlocks ordered start
        stop v needBoundCheck) (stop.sub start) globalHead 0).eval env m = last - 1 := by
  rw [Rewriter.advance]
  split
  · rw [eval_add, eval_sub, hb.evalStart, hb.evalStop, hhead]
    omega
  · rename_i hnot
    rw [hhead]
    by_contra hne
    -- there is a round, and it has a block of the first stage
    have hlt : first < last := by omega
    have hkept : a ∈ (((K.rewriter A mayConflict).newBlocks ordered start stop v
        needBoundCheck).map Prod.fst).filter fun c => c.asyncIn 0 := by
      rw [h.filter_newBlocks hb hfresh ⟨le_rfl, hlt⟩ ⟨hfirst, by omega⟩]
      exact List.mem_filter.mpr ⟨ha, hasync⟩
    obtain ⟨c, hc, rfl⟩ := List.mem_map.mp (List.mem_filter.mp hkept).1
    obtain ⟨hstage', -, hasync'⟩ := Rewriter.rewriteBlock_spec (Rewriter.mem_newBlocks.mp hc).2
    refine hnot (List.any_eq_true.mpr ⟨c, hc, ?_⟩)
    rw [Bool.or_eq_true, hasync', hstage']
    exact .inl hasync

theorem Bounds.roundEnv (hb : Bounds K env lo n start stop first last) (hfresh : K.Fresh v)
    (isUnitLoop : Bool) (lo' first' t : ℤ) :
    Bounds K (roundEnv isUnitLoop env v lo' first' t) lo n start stop first last := by
  rw [PipelinedFor.roundEnv]
  split
  · exact hb
  · exact hb.set hfresh _

/-- `producer_head` in the epilogue. -/
theorem AsyncPipeline.eval_heads (h : AsyncPipeline K A mayConflict ordered)
    (hmin : ∀ m, K.loop.min.eval env m = lo) (hextent : ∀ m, K.loop.extent.eval env m = n)
    {newVars : Var × Var × Var} (hfresh : K.AllFresh newVars) (hstages : 0 ≤ maxStage K.info)
    (hlong : maxStage K.info ≤ n) {a : PipelineBlock R} (ha : a ∈ ordered)
    (hasync : a.asyncIn 0 = true) :
    ((K.rewriter A mayConflict).advance ordered
      ((K.rewriter A mayConflict).newBlocks ordered (K.loop.min.add (.int (maxStage K.info)))
        (K.loop.min.add K.loop.extent) newVars.2.1 false)
      ((K.loop.min.add K.loop.extent).sub (K.loop.min.add (.int (maxStage K.info))))
      ((K.rewriter A mayConflict).advance ordered
        ((K.rewriter A mayConflict).newBlocks ordered K.loop.min
          (K.loop.min.add (.int (maxStage K.info))) newVars.1 true)
        ((K.loop.min.add (.int (maxStage K.info))).sub K.loop.min)
        fun _ => K.loop.min.sub (.int 1)) 0).eval env m = lo + n - 1 := by
  refine h.eval_advance (bounds_body hmin hextent) hfresh.2.1 (by omega) (by omega) le_rfl ha
    hasync ?_
  refine h.eval_advance (bounds_prologue hmin hextent) hfresh.1 le_rfl (by omega) (by omega) ha
    hasync ?_
  rw [eval_sub, hmin, eval_int]

end

theorem data_of_bufferRemap {mayConflict : R → R → Bool} {info : List (PipelineBlock R)}
    {pipelineAllocs : List Buffer} {buffer newBuffer : Buffer}
    (h : bufferRemap mayConflict info pipelineAllocs buffer = some newBuffer) :
    newBuffer.data = buffer.data := by
  rw [bufferRemap] at h
  split at h
  · rw [← Option.some.inj h]
    rfl
  · cases h

end PipelinedFor

/-! ## A loop with an async copy -/

/-- The expression has no variable and no load, and this value. -/
def foldsTo (value : ℤ) (e : Expr) : Bool :=
  e.vars.isEmpty && e.loads.isEmpty && e.eval (fun _ => 0) (fun _ => 0) = value

theorem eval_of_foldsTo {value : ℤ} {e : Expr} (h : foldsTo value e = true) (env : Env) (m : Mem) :
    e.eval env m = value := by
  rw [foldsTo, Bool.and_eq_true, Bool.and_eq_true, List.isEmpty_iff, List.isEmpty_iff,
    decide_eq_true_eq] at h
  obtain ⟨⟨hvars, hloads⟩, hvalue⟩ := h
  rw [← hvalue]
  refine e.eval_congr (fun x hx => ?_) fun b hb => ?_
  · rw [hvars] at hx
    exact absurd hx List.not_mem_nil
  · rw [hloads] at hb
    exact absurd hb List.not_mem_nil

/-- An analyzer that folds constants. -/
def Analyzer.folding : Analyzer where
  provesOne := foldsTo 1
  provesNot _ := foldsTo 0
  provesOne_sound _ h := eval_of_foldsTo h
  provesNot_sound _ _ h env m _ := eval_of_foldsTo h env m

/-- The copy and the addition, with the copy in the background. -/
def asyncCopyThenAdd : PipelinedFor Unit :=
  { copyThenAdd with info := [{ copyBlock with async := true }, addBlock] }

end TileLangNpuir.Pipeline
